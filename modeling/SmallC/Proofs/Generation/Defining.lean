import SmallC.Proofs.Generation.Scoping

/-!
Definitions. A variable that is introduced stands in the innermost level from then on, and what was known before
stays as it was. Either the variable gets a register that its value is computed or copied into, or the temporary that
the value is in becomes the variable.
-/
namespace SmallC

open Allocator Machine

/-- One variable comes to the innermost level, which did not have its name. -/
structure Gains (K : VarId → Prop) (kept : List Reg) (name : String) (id : VarId) (p p' : Progress) : Prop where
  stands : Stands K p.allocator p'.allocator
  orderly : p'.Orderly K kept
  code : Appends p p'
  absent : p.allocator.current.names.lookup name = none
  other : ¬ K id
  scopes : p'.allocator.scopes = p.allocator.current.addName name id :: p.allocator.scopes.tail

/-- Code that introduces a variable with a word. Which word it is depends on the values that variables have. -/
structure Introduces (S : Site) (K : VarId → Prop) (p : Progress) (name : String) (id : VarId) (p' : Progress)
    (R : (VarId → Option Word) → Word → Prop) : Prop extends Gains K [] name id p p' where
  runs : S.Hosts p' → ∀ {last m w}, Abreast S p last m → R last w →
    ∃ last' m', Abreast S p' last' m' ∧ Reaches S.entries m m' ∧ last' id = some w ∧ ∀ {i}, K i → last' i = last i

variable {S : Site} {K : VarId → Prop} {kept fewer : List Reg} {p p' p₁ p₂ : Progress} {m : Machine}
  {last : VarId → Option Word} {c : Context} {id : VarId} {r rs : Reg} {name v : String} {code : Code}
  {R R' : (VarId → Option Word) → Word → Prop} {f : Variable → Variable}

theorem Allocator.scopes_modifyCurrent (a : Allocator) (f : Level → Level) :
    (a.modifyCurrent f).scopes = f a.current :: a.scopes.tail := by
  unfold modifyCurrent modifyLevel depth
  cases inner : a.inner with
  | nil => simp [scopes, current, inner]
  | cons level outer => simp [scopes, current, inner]

namespace Gains

theorem mono (gains : Gains K kept name id p p') (within : fewer ⊆ kept) : Gains K fewer name id p p' :=
  ⟨gains.stands, gains.orderly.mono (fun counts => counts) within, gains.code, gains.absent, gains.other, gains.scopes⟩

/-- More is generated first. -/
theorem after (along : Along K kept p p₁) (gains : Gains K fewer name id p₁ p') : Gains K fewer name id p p' := by
  have current : p₁.allocator.current = p.allocator.current := by
    rw [current, current, along.root, along.inner]
  have scopes := scopes_congr along.root along.inner
  refine ⟨along.stands.trans gains.stands, gains.orderly, along.code.trans gains.code, ?_, gains.other, ?_⟩
  · rw [← current]
    exact gains.absent
  · rw [← current, ← scopes]
    exact gains.scopes

/-- More is generated behind. -/
theorem extend (gains : Gains K kept name id p p₁) (along : Along K fewer p₁ p') : Gains K fewer name id p p' :=
  ⟨gains.stands.trans along.stands, along.orderly, gains.code.trans along.code, gains.absent, gains.other,
    (scopes_congr along.root along.inner).trans gains.scopes⟩

/-- The variable stands under its name. -/
theorem resolved (gains : Gains K kept name id p p') : resolveIn p'.allocator.scopes name = some id := by
  rw [gains.scopes, resolveIn, List.findSome?_cons, lookup_addName gains.absent, if_pos rfl]

/-- What the state between two statements is like is not changed by a definition. -/
theorem clear (gains : Gains K kept name id p p') (clear : p.allocator.Clear)
    (after : At p.allocator.shape p'.allocator) : p'.allocator.Clear where
  sound := after.sound
  idle := after.idle
  ready := by
    rw [after.shape]
    exact clear.ready
  empty := by
    rw [after.shape]
    exact clear.empty
  numeric := gains.orderly.calm.numeric
  plain l member := by
    rw [gains.scopes] at member
    rcases List.mem_cons.1 member with rfl | member
    · refine clear.plain p.allocator.current ?_
      rw [scopes_eq]
      exact List.mem_cons_self
    · exact clear.plain l (List.mem_of_mem_tail member)

/-- The number of the variable comes to the innermost scope. -/
theorem reflects {env env' : Env} {last' : VarId → Option Word} {x : Number} {v : Variable}
    (gains : Gains p.allocator.Known kept name id p p')
    (reflects : Reflects p.allocator last env p.allocator.scopes)
    (others : ∀ {i}, p.allocator.Known i → last' i = last i) (sound : Sound [] p.allocator)
    (found : p'.allocator.var? id = some v) (kind : v.kind = x.kind) (value : last' id = some x.word)
    (added : env.add? name x = some env') : Reflects p'.allocator last' env' p'.allocator.scopes := by
  have before : Reflects p'.allocator last' env p.allocator.scopes :=
    reflects.congr gains.stands.alike (fun inScope => inScope.known sound.names) others
  obtain ⟨v', found', isNamed, own, deep⟩ := var?_of_lookup gains.orderly.sound.names
    ((List.nil_append _).trans gains.scopes.symm).symm
    ((lookup_addName gains.absent id name).trans (if_pos rfl))
  cases found.symm.trans found'
  rw [scopes_eq] at before
  rw [gains.scopes]
  cases before with
  | cons shows rest =>
    rw [Env.add?] at added
    split at added
    · cases added
    · cases added
      exact .cons (shows.add gains.absent ⟨⟨v, found, isNamed, own, deep, kind⟩, value⟩) rest

end Gains

namespace Introduces

theorem weaken (introduces : Introduces S K p name id p' R) (holds : ∀ {last w}, R' last w → R last w) :
    Introduces S K p name id p' R' :=
  ⟨introduces.toGains, fun hosts _ _ _ abreast value => introduces.runs hosts abreast (holds value)⟩

/-- More code is run through that changes no values. -/
theorem extend (introduces : Introduces S K p name id p₁ R) (flows : RunsThrough S K [] p₁ p') :
    Introduces S K p name id p' R := by
  refine ⟨introduces.toGains.extend flows.along, fun hosts last m w abreast value => ?_⟩
  obtain ⟨last₁, m₁, abreast₁, reaches, own, others⟩ := introduces.runs (hosts.before flows.along) abreast value
  obtain ⟨m₂, comes⟩ := flows.runs hosts abreast₁
  exact ⟨last₁, m₂, comes.abreast, reaches.trans comes.reaches, own, others⟩

end Introduces

/-- A number is computed first, and then the variable is introduced with it. -/
theorem Produces.introduces {Q : (VarId → Option Word) → Number → Prop} (produces : Produces S K p v p₁ Q)
    (introduces : Introduces S K p₁ name id p' fun last w => ∃ x, Gen.Denotes p₁.allocator last v x ∧ w = x.word) :
    Introduces S K p name id p' fun last w => ∃ x, Q last x ∧ w = x.word := by
  refine ⟨introduces.toGains.after produces.along, fun hosts last m w abreast => ?_⟩
  rintro ⟨x, value, rfl⟩
  obtain ⟨last₁, m₁, comes, denotes⟩ :=
    produces.runs (hosts.earlier introduces.code introduces.stands.grows) abreast value
  obtain ⟨last₂, m₂, abreast₂, reaches, own, others⟩ := introduces.runs hosts comes.abreast ⟨x, denotes, rfl⟩
  exact ⟨last₂, m₂, abreast₂, comes.reaches.trans reaches, own,
    fun counts => (others counts).trans (comes.same counts)⟩

namespace Gen

open Alloc

/-! ### Introducing variables -/

/-- A new variable in a register, which its value is written to next. -/
theorem addVariable_gains (orderly : p.Orderly K kept)
    (ran : (Gen.alloc (Alloc.addVariable name none)).exec c p = .ok (r, p')) :
    ∃ id, Gains K kept name id p p' ∧ Poised id r p'.allocator ∧ r.isPool = true ∧
      (S.Hosts p' → ∀ {last m}, Abreast S p last m → ∃ m', Abreast S p' last m' ∧ Reaches S.entries m m' ∧
        ∀ s ∈ kept, m'.reg s = m.reg s) := by
  obtain ⟨w, did, rfl⟩ := exec_alloc ran
  have carries : ∀ {last m}, Carried m S.base S.size last [] ⟨p.allocator, #[]⟩ m → Room S.base S.size w.allocator →
      ∃ m', Carried m S.base S.size last [] w m' ∧ ∃ id, Poised id r w.allocator :=
    fun carried room => addVariable_carried carried room did
  obtain ⟨absent, mid, ⟨-, took⟩ | ⟨given, -⟩, rfl⟩ := ran_addVariable did
  · have taken := takes orderly.sound took
    have steady := take_steady orderly.sound orderly.calm took
    have absent' : mid.allocator.current.names.lookup name = none := by
      rwa [Allocator.current, taken.keeps.inner, taken.keeps.root]
    have vars := var?_withVariable mid.allocator name r
    have fresh : ¬ K mid.allocator.vars.size := fun counts => Nat.lt_irrefl _ (steady.stands.still counts)
    have stands : Stands K mid.allocator (withVariable name r mid.allocator) :=
      .of_other (grows_withVariable _ _ _) steady.stands.still fresh fun other apart => (vars other).trans (if_neg apart)
    have numeric : (withVariable name r mid.allocator).Numeric := fun {i u} found => by
      rw [vars] at found
      split at found
      · cases found
        refine ⟨fun there => ?_, fun slot there => ?_, rfl, rfl, rfl⟩
        · cases there
          exact taken.inPool
        · cases there
      · exact steady.numeric found
    have scopes : (withVariable name r mid.allocator).scopes =
        p.allocator.current.addName name mid.allocator.vars.size :: p.allocator.scopes.tail := by
      have current : mid.allocator.current = p.allocator.current := by
        rw [Allocator.current, Allocator.current, steady.inner, steady.root]
      refine (scopes_modifyCurrent _ _).trans ?_
      change mid.allocator.current.addName name mid.allocator.vars.size :: mid.allocator.scopes.tail = _
      rw [current, scopes_congr steady.root steady.inner]
    have held : (withVariable name r mid.allocator).held =
        if r ∈ mid.allocator.held then mid.allocator.held else r :: mid.allocator.held := by
      rw [withVariable, Allocator.bound, modifyCurrent, held_modifyLevel]
      rfl
    obtain ⟨code, emitted, spares⟩ := steady.code
    rw [Array.empty_append] at emitted
    have spares' : ∀ i ∈ mid.code, MachineInstr.Spares kept i := steady.spares
    refine ⟨mid.allocator.vars.size, ⟨steady.stands.trans stands, ⟨withVariable_sound taken.sound absent', ⟨?_, numeric,
      fun s member => ?_⟩, orderly.pooled⟩, ?_, absent, fresh, scopes⟩, ⟨_, (vars _).trans (if_pos rfl), rfl, fun _ => rfl⟩,
      taken.inPool, fun hosts last m abreast => ?_⟩
    · exact (steady.stands.trans stands).still
    · rw [allocator_on, held]
      exact held_hold r s (steady.held s member)
    · exact .of_pushAll (fun i member => (spares i (emitted ▸ member)).2) rfl
    · obtain ⟨m', carried, -⟩ := carries ⟨orderly.sound, abreast.agrees, rfl⟩ hosts.room
      exact alloc_comes orderly.pooled spares' hosts abreast.here carried
  · cases given

/-- A temporary becomes a variable. -/
theorem renameTemp_gains (orderly : p.Orderly K []) (loose : Loose K v p.allocator)
    (ran : (Gen.alloc (Alloc.renameTemp v name)).exec c p = .ok ((), p')) :
    ∃ id, p.allocator.temps.lookup v = some id ∧ Gains K [] name id p p' ∧
      (S.Hosts p' → ∀ {last m}, Abreast S p last m → ∃ m', Abreast S p' last m' ∧ Reaches S.entries m m') := by
  obtain ⟨w, did, rfl⟩ := exec_alloc ran
  have carries : ∀ {last m}, Carried m S.base S.size last [] ⟨p.allocator, #[]⟩ m →
      Carried m S.base S.size last [] w m := fun carried => renameTemp_carried carried did
  have sound := renameTemp_sound orderly.sound did
  have grows := growing_renameTemp _ _ _ did
  obtain ⟨absent, id, u, looked, found, shape⟩ := ran_renameTemp did
  obtain ⟨u', vars, numeric, scopes, silent⟩ : ∃ u', (∀ other, w.allocator.var? other =
      if other = id then some u' else p.allocator.var? other) ∧ u'.Numeric ∧
      w.allocator.scopes = p.allocator.current.addName name id :: p.allocator.scopes.tail ∧ ∀ i, i ∉ w.code := by
    have numeric := orderly.calm.numeric found
    rcases shape with ⟨s, -, rfl⟩ | ⟨there, home, -, -, rfl⟩
    · refine ⟨renamedVar (p.allocator.grown 1) name p.allocator.nextHome true u, fun other => ?_,
        ⟨numeric.pooled, numeric.unsaved, numeric.scalar, numeric.plain, numeric.untouched⟩,
        scopes_modifyCurrent _ _, Array.not_mem_empty⟩
      exact (var?_modifyLevel _ _).trans (var?_setVar (a := p.allocator.grown 1) found _ other)
    · refine ⟨renamedVar p.allocator name home false u, fun other => ?_,
        ⟨numeric.pooled, numeric.unsaved, numeric.scalar, numeric.plain, numeric.untouched⟩,
        scopes_modifyCurrent _ _, Array.not_mem_empty⟩
      exact (var?_modifyLevel _ _).trans (var?_setVar (a := p.allocator) found _ other)
  have stands : Stands K p.allocator w.allocator :=
    .of_other grows orderly.calm.inside (loose id looked) fun other apart => (vars other).trans (if_neg apart)
  refine ⟨id, looked, ⟨stands, ⟨sound, ⟨stands.still, fun {i t} known => ?_, nofun⟩, nofun⟩,
    .of_pushAll (fun i member => absurd member (silent i)) rfl, absent, loose id looked, scopes⟩,
    fun hosts last m abreast => ?_⟩
  · rw [vars] at known
    split at known
    · cases known
      exact numeric
    · exact orderly.calm.numeric known
  · obtain ⟨m', abreast', reaches, -⟩ := alloc_comes (List.forall_mem_nil fun r : Reg => r.isPool = true)
      (fun i member => absurd member (silent i)) hosts
      abreast.here (carries ⟨orderly.sound, abreast.agrees, rfl⟩)
    exact ⟨m', abreast', reaches⟩

/-! ### Definitions -/

/-- A number is loaded into a new variable. -/
theorem addConstant_introduces {n : Int} (orderly : p.Orderly K [])
    (ran : (do loadLiteral (← Gen.alloc (Alloc.addVariable name none)) n : Gen Unit).exec c p = .ok ((), p')) :
    ∃ id, Introduces S K p name id p' fun _ w => w = Word.ofInt n := by
  obtain ⟨rd, p₁, added, loaded⟩ := exec_bind_ok ran
  obtain ⟨id, gains, poised, inPool, introduces⟩ := addVariable_gains (S := S) orderly added
  obtain ⟨along, -⟩ := emitAll_along gains.orderly (local_literalCode (Reg.ne_returnAddress inPool) n) loaded
  refine ⟨id, gains.extend along, fun hosts last m w abreast => ?_⟩
  rintro rfl
  obtain ⟨m₁, abreast₁, reaches, -⟩ := introduces (hosts.before along) abreast
  obtain ⟨m₂, abreast₂, reaches'⟩ := emitAll_leaves gains.orderly.sound loaded hosts abreast₁ poised
    (leaves_literalCode inPool abreast₁.agrees.zero n)
  refine ⟨_, m₂, abreast₂, reaches.trans reaches', Function.update_self .., fun {i} counts => ?_⟩
  apply Function.update_of_ne
  rintro rfl
  exact gains.other counts

/-- A value that was computed is what a new variable starts with. -/
theorem adopt_introduces {rest : Gen Unit} (orderly : p.Orderly K []) (loose : Loose K v p.allocator) (ran : (do
      if ← look fun a => a.isTemp v then Gen.alloc (Alloc.renameTemp v name)
      else
        let rs ← fetch v
        let rd ← Gen.alloc (Alloc.addVariable name none)
        Gen.emit (MachineInstr.move rd rs)
      rest : Gen Unit).exec c p = .ok ((), p')) :
    ∃ id p₁, (Introduces S K p name id p₁ fun last w => ∃ x, Denotes p.allocator last v x ∧ w = x.word) ∧
      rest.exec c p₁ = .ok ((), p') := by
  obtain ⟨isTemp, p₁, looked, ran⟩ := exec_bind_ok ran
  cases looked
  dsimp only at ran
  split at ran
  · obtain ⟨⟨⟩, p₁, renamed, ran⟩ := exec_bind_ok ran
    obtain ⟨id, looked, gains, runs⟩ := renameTemp_gains (S := S) orderly loose renamed
    refine ⟨id, p₁, ⟨gains, fun hosts last m w abreast => ?_⟩, ran⟩
    rintro ⟨x, ⟨i, u, resolved, -, -, value, -⟩, rfl⟩
    obtain ⟨m', abreast', reaches⟩ := runs hosts abreast
    rw [Allocator.find?, looked] at resolved
    cases resolved
    exact ⟨last, m', abreast', reaches, value, fun _ => rfl⟩
  · obtain ⟨rs, p₁, fetched, ran⟩ := exec_bind_ok ran
    obtain ⟨rd, p₂, added, ran⟩ := exec_bind_ok ran
    obtain ⟨⟨⟩, p₃, moved, ran⟩ := exec_bind_ok ran
    obtain ⟨flows, reads, held⟩ := fetch_flows (S := S) orderly fetched
    obtain ⟨id, gains, poised, inPool, introduces⟩ := addVariable_gains (S := S) held added
    have copies := copies_move (S := S) gains.orderly poised inPool (held.pooled rs List.mem_cons_self) moved
    refine ⟨id, p₃, ⟨(Gains.after flows.along (gains.extend copies.along)).mono (List.nil_subset _),
      fun hosts last m w abreast => ?_⟩, ran⟩
    rintro ⟨x, denotes, rfl⟩
    have hosts₂ := hosts.before copies.along
    obtain ⟨m₁, comes⟩ := flows.runs (hosts₂.earlier gains.code gains.stands.grows) abreast
    obtain ⟨m₂, abreast₂, reaches, still⟩ := introduces hosts₂ comes.abreast
    obtain ⟨m₃, abreast₃, reaches'⟩ := copies.runs hosts ⟨abreast₂.agrees.forget id, abreast₂.here⟩
    refine ⟨_, m₃, abreast₃, (comes.reaches.trans reaches).trans reaches', ?_, fun {i} counts => ?_⟩
    · rw [Function.update_self, still rs List.mem_cons_self,
        reads.value denotes held.calm.numeric comes.abreast.agrees]
    · apply Function.update_of_ne
      rintro rfl
      exact gains.other counts

theorem initialise_introduces {ty : TypeSpec} (valued : Valued S c code) (plain : ty.refs = 0)
    (orderly : p.Orderly K []) (covers : Covers K p.allocator)
    (ran : (initialise name ty code).exec c p = .ok ((), p')) : ∃ id, Introduces S K p name id p' fun last w =>
      ∃ x, code.expr.Means p.allocator last x ∧ w = (x.convert ty.kind).word := by
  have kind : ty.arithmeticKind = ty.kind := if_neg (by omega)
  rw [initialise, kind] at ran
  split at ran
  · next n known =>
    obtain ⟨id, introduces⟩ := addConstant_introduces (S := S) orderly ran
    refine ⟨id, introduces.weaken ?_⟩
    rintro last w ⟨x, ⟨env, -, evaluated⟩, rfl⟩
    exact constant_value (Option.filter_eq_some_iff.1 known).1 evaluated
  · obtain ⟨v, p₁, computed, ran⟩ := exec_bind_ok ran
    dsimp only at ran
    rw [if_neg (by omega), kind] at ran
    obtain ⟨v', p₂, converted, ran⟩ := exec_bind_ok ran
    have first := valued.produces orderly covers computed
    have produces := first.next (convert_produces (S := S) first.along.orderly first.loose converted)
    obtain ⟨id, p₃, introduces, hinted⟩ := adopt_introduces (S := S) produces.along.orderly produces.loose ran
    have whole := produces.introduces introduces
    refine ⟨id, (whole.extend (hint_flows whole.orderly hinted)).weaken ?_⟩
    rintro last w ⟨x, means, rfl⟩
    exact ⟨x.convert ty.kind, ⟨x, means, rfl⟩, rfl⟩

/-- A note about a variable that does not count is of no concern to values. -/
theorem note_flows (orderly : p.Orderly K []) (resolved : p.allocator.find? name = some id) (other : ¬ K id)
    (note : ∀ v : Variable, (f v).storage = v.storage ∧ (f v).name = v.name ∧ (f v).isTemp = v.isTemp ∧
      (f v).depth = v.depth ∧ (f v).home = v.home ∧ (f v).array = v.array ∧ (f v).isPinned = v.isPinned ∧
      (f v).isDirty = v.isDirty ∧ (f v).mustReload = v.mustReload) (plain : ∀ v : Variable, v.refs = 0 → (f v).refs = 0)
    (ran : (Gen.alloc (do Alloc.update (← Alloc.resolve name) f)).exec c p = .ok ((), p')) :
    RunsThrough S K [] p p' ∧ p'.allocator.find? name = some id ∧
      ∃ v, p.allocator.var? id = some v ∧ p'.allocator.var? id = some (f v) := by
  obtain ⟨w, did, rfl⟩ := exec_alloc ran
  have sound := noteOf_sound orderly.sound (fun v => by
    obtain ⟨storage, name, isTemp, depth, home, array, pinned, -⟩ := note v
    exact ⟨storage, name, isTemp, depth, home, array, pinned⟩) did
  have steady := note_steady orderly.calm (fun i resolved' counts => by
    cases resolved.symm.trans resolved'
    exact other counts) (fun v => by
    obtain ⟨storage, -, -, -, -, array, -, -, mustReload⟩ := note v
    exact ⟨storage, array, mustReload, plain v⟩) did
  refine ⟨flows_alloc orderly steady sound fun carried _ => ⟨_, note_carried carried note did⟩, ?_⟩
  simp only [ran_bind, ran_resolve, ran_update, and_assoc, exists_and_left, exists_eq_left] at did
  obtain ⟨i, resolved', v, found, rfl⟩ := did
  cases resolved.symm.trans resolved'
  exact ⟨resolved, v, found, var?_setVar_self found _⟩

/-- The type of a variable is noted, of which no address is taken. -/
theorem noteType_flows {ty : TypeSpec} {hasValue : Bool} (plain : ty.refs = 0) (untaken : c.addressTaken = [])
    (orderly : p.Orderly K []) (resolved : p.allocator.find? name = some id) (other : ¬ K id)
    (ran : (noteType name ty hasValue).exec c p = .ok ((), p')) :
    RunsThrough S K [] p p' ∧ ∃ v, p'.allocator.var? id = some v ∧ v.kind = ty.kind := by
  obtain ⟨⟨⟩, p₁, noted, ran⟩ := exec_bind_ok ran
  obtain ⟨⟨⟩, p₂, noted', ran⟩ := exec_bind_ok ran
  obtain ⟨first, resolved₁, v, -, found⟩ := note_flows (S := S) (f := fun v => { v with kind := ty.kind }) orderly
    resolved other (fun _ => ⟨rfl, rfl, rfl, rfl, rfl, rfl, rfl, rfl, rfl⟩) (fun _ plain => plain) noted
  obtain ⟨second, -, u, found', found₂⟩ := note_flows (S := S) (f := fun v => { v with refs := ty.refs })
    first.along.orderly resolved₁ other (fun _ => ⟨rfl, rfl, rfl, rfl, rfl, rfl, rfl, rfl, rfl⟩) (fun _ _ => plain) noted'
  cases found.symm.trans found'
  have last : p' = p₂ := by
    change (if name ∈ c.addressTaken then _ else pure () : Gen Unit).exec c p₂ = _ at ran
    rw [untaken, if_neg List.not_mem_nil] at ran
    cases ran
    rfl
  subst last
  exact ⟨first.trans second, _, found₂, rfl⟩

end Gen

end SmallC
