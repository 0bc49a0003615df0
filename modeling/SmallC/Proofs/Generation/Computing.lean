import SmallC.Proofs.Generation.Running

/-!
Code that computes numbers. Operands are read into registers, which are held until the result is in a register
of its own; operands that are temporaries are dropped in between. The number that the result stands for is that
of the operation on the numbers that the operands stand for.
-/
namespace SmallC

open Allocator Machine

/-- The variables whose numbers were handed out. -/
def Allocator.Known (a : Allocator) (id : VarId) : Prop := id < a.vars.size

/-- Code that computes a number, and a name that stands for it. Which number it is depends on the values that
variables have. -/
structure Produces (S : Site) (K : VarId → Prop) (p : Progress) (v : String) (p' : Progress)
    (R : (VarId → Option Word) → Number → Prop) : Prop where
  along : Along K [] p p'
  loose : Gen.Loose K v p'.allocator
  runs : S.Hosts p' → ∀ {last m x}, Abreast S p last m → R last x →
    ∃ last' m', Comes S K [] p' last m last' m' ∧ Gen.Denotes p'.allocator last' v x

theorem Progress.Orderly.known {p : Progress} {K : VarId → Prop} {kept : List Reg} (orderly : p.Orderly K kept) :
    p.Orderly p.allocator.Known kept :=
  ⟨orderly.sound, ⟨fun known => known, orderly.calm.numeric, orderly.calm.held⟩, orderly.pooled⟩

namespace Gen

open Alloc

variable {S : Site} {K L : VarId → Prop} {kept : List Reg} {p p' p₁ p₂ p₃ p₄ : Progress} {m m' : Machine}
  {last last' : VarId → Option Word} {c : Context} {name l r v temp : String} {kind : NumberKind} {refs : Nat}

/-- What is known stays what it was, whatever is done that leaves all of it where it stands. -/
theorem Denotes.still {x : Number} (denotes : Denotes p.allocator last name x) (orderly : p.Orderly K kept)
    (along : Along p.allocator.Known [] p p') (same : ∀ {id}, p.allocator.Known id → last' id = last id) :
    Denotes p'.allocator last' name x := by
  refine denotes.along orderly.sound.names along.orderly.sound.names along.stands along.root along.inner
    (fun id resolved => ?_) same
  obtain ⟨i, v, resolved', found, -⟩ := denotes
  cases resolved.symm.trans resolved'
  exact var?_lt found

/-! ### Operands -/

/-- An operand is read into a register and dropped, if it is a temporary. -/
theorem load_one {a : Reg} (orderly : p.Orderly K []) (loose : Loose K l p.allocator)
    (fetched : (fetch l).exec c p = .ok (a, p₁)) (freed : (free l).exec c p₁ = .ok ((), p₂)) :
    Along K [] p p₂ ∧ p₂.Orderly K [a] ∧ (S.Hosts p₂ → ∀ {last m x}, Abreast S p last m →
      Denotes p.allocator last l x → ∃ m', Comes S K [] p₂ last m last m' ∧ m'.reg a = x.word) := by
  obtain ⟨flows, reads, held⟩ := fetch_flows (S := S) orderly fetched
  have loose' : Loose K l p₁.allocator := fun id looked => loose id (reads.temps ▸ looked)
  have dropped := free_flows (S := S) held loose' freed
  refine ⟨flows.along.trans (dropped.along.mono (fun counts => counts) (List.nil_subset _)), dropped.along.orderly,
    fun hosts last m x abreast denotes => ?_⟩
  obtain ⟨m₁, comes⟩ := flows.runs (hosts.before dropped.along) abreast
  obtain ⟨m₂, comes'⟩ := dropped.runs hosts comes.abreast
  refine ⟨m₂, comes.trans (comes'.mono (fun counts => counts) (List.nil_subset _)), ?_⟩
  rw [comes'.still a List.mem_cons_self]
  exact reads.value denotes held.calm.numeric comes.abreast.agrees

/-- Two operands are read into registers and dropped, as far as they are temporaries. -/
theorem load_two {a b : Reg} (orderly : p.Orderly K []) (loose : Loose K l p.allocator)
    (loose' : Loose K r p.allocator) (fetched : (fetch l).exec c p = .ok (a, p₁))
    (fetched' : (fetch r).exec c p₁ = .ok (b, p₂)) (freed : (free l).exec c p₂ = .ok ((), p₃))
    (freed' : (free r).exec c p₃ = .ok ((), p₄)) :
    Along K [] p p₄ ∧ p₄.Orderly K [b, a] ∧ (S.Hosts p₄ → ∀ {last m x y}, Abreast S p last m →
      Denotes p.allocator last l x → Denotes p.allocator last r y →
        ∃ m', Comes S K [] p₄ last m last m' ∧ m'.reg a = x.word ∧ m'.reg b = y.word) := by
  obtain ⟨flows, reads, held⟩ := fetch_flows (S := S) orderly.known fetched
  obtain ⟨flows', reads', held'⟩ := fetch_flows (S := S) held fetched'
  have counts : ∀ {id}, K id → p.allocator.Known id := orderly.calm.inside
  have both : p₂.Orderly K [b, a] := held'.mono counts (List.Subset.refl _)
  have first : RunsThrough S K [] p p₂ := (flows.trans (flows'.mono (fun known => known) (List.nil_subset _))).mono
    counts (List.Subset.refl _)
  have temps : p₂.allocator.temps = p.allocator.temps := reads'.temps.trans reads.temps
  have second := free_flows (S := S) both (fun id looked => loose id (temps ▸ looked)) freed
  have third := free_flows (S := S) second.along.orderly
    (Loose.along (fun id looked => loose' id (temps ▸ looked)) both second.along) freed'
  have dropped := second.trans third
  refine ⟨first.along.trans (dropped.along.mono (fun counts => counts) (List.nil_subset _)), dropped.along.orderly,
    fun hosts last m x y abreast left right => ?_⟩
  have hosts₂ := hosts.before dropped.along
  obtain ⟨m₁, comes⟩ := flows.runs (hosts₂.before flows'.along) abreast
  obtain ⟨m₂, comes'⟩ := flows'.runs hosts₂ comes.abreast
  obtain ⟨m₄, comes''⟩ := dropped.runs hosts comes'.abreast
  refine ⟨m₄, ((comes.trans (comes'.mono (fun known => known) (List.nil_subset _))).mono counts
    (List.Subset.refl _)).trans (comes''.mono (fun counts => counts) (List.nil_subset _)), ?_, ?_⟩
  · rw [comes''.still a (by simp), comes'.still a (by simp)]
    exact reads.value left held.calm.numeric comes.abreast.agrees
  · rw [comes''.still b (by simp)]
    exact reads'.value (right.still orderly flows.along comes.same) held'.calm.numeric comes'.abreast.agrees

/-! ### Code that has nothing to do with the return address -/

theorem local_alu {op : AluOp} {rd rs rt : Reg} (result : Reg.returnAddress ≠ rd)
    (left : Reg.returnAddress ≠ rs) (right : Reg.returnAddress ≠ rt) : MachineInstr.Local (.alu op rd rs rt) := by
  constructor
  · simp [MachineInstr.SparesReturnAddress, Instr.operands, result, left, right]
  · rfl

theorem local_shift {op : ShiftOp} {rd rs : Reg} {amount : Nat} (result : Reg.returnAddress ≠ rd)
    (operand : Reg.returnAddress ≠ rs) : MachineInstr.Local (.shift op rd rs amount) := by
  constructor
  · simp [MachineInstr.SparesReturnAddress, Instr.operands, result, operand]
  · rfl

theorem local_literalCode {rd : Reg} (apart : Reg.returnAddress ≠ rd) (n : Int) :
    ∀ i ∈ literalCode rd n, i.Local := by
  unfold literalCode
  split
  · exact List.forall_mem_singleton.2 (local_addi apart (by decide))
  · refine List.forall_mem_append.2 ⟨?_, ?_⟩
    · exact List.forall_mem_cons.2 ⟨local_addi apart (by decide), List.forall_mem_singleton.2 (local_shift apart apart)⟩
    · split
      · exact nofun
      · exact List.forall_mem_singleton.2 (local_addi apart apart)

theorem local_code {rd a b : Reg} (inPool : rd.isPool = true) (left : a.isPool = true) (right : b.isPool = true)
    (op : ArithmeticOp) : ∀ i ∈ op.code rd a b, i.Local := by
  have apart := Reg.ne_returnAddress inPool
  have apart₁ := Reg.ne_returnAddress left
  have apart₂ := Reg.ne_returnAddress right
  have scratch : Reg.returnAddress ≠ Reg.scratch := by decide
  cases op with
  | xor => simpa [ArithmeticOp.code] using ⟨local_alu scratch apart₁ apart₂, local_alu apart apart₁ apart₂,
      local_alu apart scratch apart⟩
  | mod => simpa [ArithmeticOp.code] using ⟨local_alu apart apart₁ apart₂, local_alu apart apart apart₂,
      local_alu apart apart₁ apart⟩
  | _ => simpa [ArithmeticOp.code] using local_alu apart apart₁ apart₂

/-! ### Results -/

/-- A number is computed into a new temporary, from registers that are held. -/
theorem compute_temp {f : Reg → List MachineInstr} (orderly : p.Orderly K kept) (plain : refs = 0)
    (own : ∀ {rd : Reg}, rd.isPool = true → ∀ i ∈ f rd, i.Local) (ran : (do
      let (temp, rd) ← newTemp kind refs
      emitAll (f rd)
      releaseHolds
      return temp : Gen String).exec c p = .ok (temp, p')) :
    Along K [] p p' ∧ Loose K temp p'.allocator ∧ (S.Hosts p' → ∀ {last m w}, Abreast S p last m →
      (∀ {m' rd}, rd.isPool = true → rd ∉ kept → m'.reg Reg.zero = 0 → (∀ r ∈ kept, m'.reg r = m.reg r) →
        Leaves m' (f rd) rd w) →
      ∃ last' m', Comes S K [] p' last m last' m' ∧ Denotes p'.allocator last' temp ⟨kind, w⟩) := by
  obtain ⟨⟨temp', rd⟩, p₁, made, ran⟩ := exec_bind_ok ran
  obtain ⟨⟨⟩, p₂, emitted, ran⟩ := exec_bind_ok ran
  obtain ⟨⟨⟩, p₃, released, ran⟩ := exec_bind_ok ran
  cases ran
  obtain ⟨flows, taken, apart, inPool⟩ := newTemp_flows (S := S) orderly plain made
  obtain ⟨along, same⟩ := emitAll_along flows.along.orderly (own inPool) emitted
  have ends := releaseHolds_flows (S := S) along.orderly released
  have ends' := releaseHolds_flows (S := S) along.orderly.known released
  obtain ⟨id, u, above, looked, found, isTemp, there, rfl⟩ := taken.fresh
  have other : ∀ {i}, K i → i ≠ id := fun counts same => by
    subst same
    exact Nat.not_lt.2 above (orderly.calm.inside counts)
  have whole : Along K [] p p' := ((flows.along.trans along).mono (fun counts => counts) (List.nil_subset _)).trans
    ends.along
  refine ⟨whole, ?_, fun hosts last m w abreast leaves => ?_⟩
  · intro i looked' counts
    rw [exec_releaseHolds released, same] at looked'
    exact other counts (Option.some.inj (looked'.symm.trans looked))
  · obtain ⟨m₁, comes⟩ := flows.runs ((hosts.before ends.along).before along) abreast
    obtain ⟨m₂, abreast₂, reaches⟩ := emitAll_leaves flows.along.orderly.sound emitted (hosts.before ends.along)
      comes.abreast ⟨u, found, there, fun isNamed => by cases isTemp.symm.trans isNamed⟩
      (leaves inPool apart comes.abreast.agrees.zero comes.still)
    obtain ⟨m₃, comes'⟩ := ends'.runs hosts abreast₂
    refine ⟨_, m₃, ⟨comes'.abreast, (comes.reaches.trans reaches).trans comes'.reaches,
      fun counts => Function.update_of_ne (other counts) _ _, nofun⟩, ?_⟩
    have denotes : Denotes p₂.allocator (Function.update last id (some w)) temp ⟨u.kind, w⟩ := by
      rw [same]
      refine ⟨id, u, ?_, found, rfl, Function.update_self .., .inr looked⟩
      rw [Allocator.find?, looked]
      rfl
    exact denotes.still along.orderly ends'.along fun _ => rfl

/-- The value of a literal. -/
theorem literal_produces {value : Int} (orderly : p.Orderly K [])
    (ran : (literal value kind).exec c p = .ok (v, p')) :
    Produces S K p v p' fun _ x => x = ⟨kind, Word.ofInt value⟩ := by
  obtain ⟨along, loose, runs⟩ := compute_temp (S := S) (f := fun rd => literalCode rd value) orderly rfl
    (fun inPool => local_literalCode (Reg.ne_returnAddress inPool) value) ran
  refine ⟨along, loose, fun hosts _ _ x abreast is => ?_⟩
  subst is
  exact runs hosts abreast fun inPool _ zero _ => leaves_literalCode inPool zero value

/-- An operation on one operand. -/
theorem unary_produces {f : Reg → Reg → MachineInstr} {g : Word → Word} (orderly : p.Orderly K [])
    (loose : Loose K name p.allocator) (plain : refs = 0)
    (own : ∀ {rd rs : Reg}, rd.isPool = true → rs.isPool = true → (f rd rs).Local)
    (leaves : ∀ {m : Machine} {rd rs : Reg}, rd.isPool = true → m.reg Reg.zero = 0 →
      Leaves m [f rd rs] rd (g (m.reg rs)))
    (ran : (do
      let rs ← fetch name
      free name
      let (temp, rd) ← newTemp kind refs
      Gen.emit (f rd rs)
      releaseHolds
      return temp : Gen String).exec c p = .ok (v, p')) :
    Produces S K p v p' fun last y => ∃ x, Denotes p.allocator last name x ∧ y = ⟨kind, g x.word⟩ := by
  obtain ⟨rs, p₁, fetched, ran⟩ := exec_bind_ok ran
  obtain ⟨⟨⟩, p₂, freed, ran⟩ := exec_bind_ok ran
  simp only [emit_eq] at ran
  obtain ⟨along, orderly', loads⟩ := load_one (S := S) orderly loose fetched freed
  obtain ⟨along', loose', runs⟩ := compute_temp (S := S) (f := fun rd => [f rd rs]) orderly' plain
    (fun inPool => by simpa using own inPool (orderly'.pooled rs List.mem_cons_self)) ran
  refine ⟨along.trans along', loose', fun hosts last m y abreast => ?_⟩
  rintro ⟨x, denotes, rfl⟩
  obtain ⟨m₁, comes, operand⟩ := loads (hosts.before along') abreast denotes
  obtain ⟨last', m', comes', result⟩ := runs hosts comes.abreast fun {m' rd} inPool _ zero still => by
    have leaves := @leaves m' rd rs inPool zero
    rwa [still rs List.mem_cons_self, operand] at leaves
  exact ⟨last', m', comes.trans comes', result⟩

theorem shifted_produces {direction : ShiftDirection} {amount : Nat} (orderly : p.Orderly K [])
    (loose : Loose K name p.allocator) (plain : refs = 0) (inside : amount < 32)
    (ran : (shifted direction name amount kind refs).exec c p = .ok (v, p')) :
    Produces S K p v p' fun last y => ∃ x, Denotes p.allocator last name x ∧
      y = ⟨kind, direction.onWord x.word amount⟩ :=
  unary_produces (g := fun w => direction.onWord w amount) orderly loose plain
    (fun inPool inPool' => by
      cases direction <;> exact local_shift (Reg.ne_returnAddress inPool) (Reg.ne_returnAddress inPool'))
    (fun inPool _ => leaves_shift inPool inside direction) ran

/-- The kind that is noted of a variable is that of the number it stands for. -/
theorem Denotes.kind_eq {a : Allocator} {x : Number} {id : VarId} {u : Variable} (denotes : Denotes a last name x)
    (resolved : a.find? name = some id) (found : a.var? id = some u) : x.kind = u.kind := by
  obtain ⟨id', v, resolved', found', kind, -⟩ := denotes
  cases resolved.symm.trans resolved'
  cases found.symm.trans found'
  exact kind.symm

theorem convert_produces (orderly : p.Orderly K []) (loose : Loose K name p.allocator)
    (ran : (convert name kind).exec c p = .ok (v, p')) :
    Produces S K p v p' fun last y => ∃ x, Denotes p.allocator last name x ∧ y = x.convert kind := by
  obtain ⟨refs, p₁, first, ran⟩ := exec_bind_ok ran
  obtain ⟨rfl, rfl⟩ := exec_refs orderly.calm.numeric first
  obtain ⟨own, p₁, second, ran⟩ := exec_bind_ok ran
  obtain ⟨rfl, id, u, resolved, found, rfl⟩ := exec_kind second
  split at ran
  · next same =>
    cases ran
    refine ⟨.refl orderly, loose, fun _ last m y abreast => ?_⟩
    rintro ⟨x, denotes, rfl⟩
    have own : x.kind = kind := (denotes.kind_eq resolved found).trans (same.resolve_left (Nat.lt_irrefl 0))
    subst own
    rw [x.convert_self]
    exact ⟨last, m, .refl abreast, denotes⟩
  · next other =>
    have differs : ∀ {last x}, Denotes p.allocator last name x → x.kind ≠ kind := fun denotes same =>
      other (.inr ((denotes.kind_eq resolved found).symm.trans same))
    cases kind with
    | fixed =>
      have produces := shifted_produces (S := S) orderly loose rfl (by decide) ran
      refine ⟨produces.along, produces.loose, fun hosts last m y abreast => ?_⟩
      rintro ⟨⟨own, w⟩, denotes, rfl⟩
      cases own with
      | int => exact produces.runs hosts abreast ⟨_, denotes, rfl⟩
      | fixed => cases differs denotes rfl
    | int =>
      have produces := shifted_produces (S := S) orderly loose rfl (by decide) ran
      refine ⟨produces.along, produces.loose, fun hosts last m y abreast => ?_⟩
      rintro ⟨⟨own, w⟩, denotes, rfl⟩
      cases own with
      | fixed => exact produces.runs hosts abreast ⟨_, denotes, rfl⟩
      | int => cases differs denotes rfl

/-! ### Operations on two operands -/

/-- The second of two operands is another one than the first, if the first is a temporary. -/
def Apart (l r : String) (a : Allocator) : Prop := ∀ id, a.temps.lookup l = some id → a.find? r ≠ some id

/-- Two operands are made of two others, one after the other. -/
theorem both_produce {f g : Number → Number} {l' r' : String} (orderly : p.Orderly K [])
    (loose : Loose K l p.allocator) (loose' : Loose K r p.allocator)
    (first : ∀ {L : VarId → Prop}, p.Orderly L [] → Loose L l p.allocator →
      Produces S L p l' p₁ fun last y => ∃ x, Denotes p.allocator last l x ∧ y = f x)
    (second : ∀ {L : VarId → Prop}, p₁.Orderly L [] → Loose L r p₁.allocator →
      Produces S L p₁ r' p₂ fun last y => ∃ x, Denotes p₁.allocator last r x ∧ y = g x) :
    Along K [] p p₂ ∧ Loose K l' p₂.allocator ∧ Loose K r' p₂.allocator ∧
      (S.Hosts p₂ → ∀ {last m x y}, Abreast S p last m → Denotes p.allocator last l x →
        Denotes p.allocator last r y → Apart l r p.allocator →
        ∃ last' m', Comes S K [] p₂ last m last' m' ∧ Denotes p₂.allocator last' l' (f x) ∧
          Denotes p₂.allocator last' r' (g y)) := by
  -- all but the first operand is relied on while that is worked on, and then all but the second
  let M : VarId → Prop := fun id => p.allocator.Known id ∧ p.allocator.temps.lookup l ≠ some id
  let N : VarId → Prop := fun id => p₁.allocator.Known id ∧ p₁.allocator.temps.lookup r ≠ some id
  have orderlyM : p.Orderly M [] := orderly.known.mono And.left (List.nil_subset _)
  have one := first orderlyM fun id looked counts => counts.2 looked
  have inM : ∀ {id}, K id → M id := fun counts =>
    ⟨orderly.calm.inside counts, fun looked => loose _ looked counts⟩
  have alongK : Along K [] p p₁ := one.along.mono inM (List.nil_subset _)
  have looseR : Loose K r p₁.allocator := loose'.along orderly alongK
  have orderlyN : p₁.Orderly N [] := one.along.orderly.known.mono And.left (List.nil_subset _)
  have two := second orderlyN fun id looked counts => counts.2 looked
  have inN : ∀ {id}, K id → N id := fun counts =>
    ⟨alongK.stands.still counts, fun looked => looseR _ looked counts⟩
  have alongK' : Along K [] p₁ p₂ := two.along.mono inN (List.nil_subset _)
  have looseL : Loose K l' p₁.allocator := fun id looked counts => one.loose id looked (inM counts)
  refine ⟨alongK.trans alongK', looseL.along alongK.orderly alongK', fun id looked counts =>
    two.loose id looked (inN counts), fun hosts last m x y abreast left right apart => ?_⟩
  obtain ⟨last₁, m₁, comes, left₁⟩ := one.runs (hosts.before alongK') abreast ⟨x, left, rfl⟩
  -- the second operand was relied on
  have right₁ : Denotes p₁.allocator last₁ r y := by
    refine right.along orderly.sound.names one.along.orderly.sound.names one.along.stands one.along.root
      one.along.inner (fun id resolved => ?_) comes.same
    obtain ⟨i, v, resolved', found, -⟩ := right
    cases resolved.symm.trans resolved'
    exact ⟨var?_lt found, fun looked => apart _ looked resolved⟩
  obtain ⟨last₂, m₂, comes', right₂⟩ := two.runs hosts comes.abreast ⟨y, right₁, rfl⟩
  -- and so was what was made of the first
  have left₂ : Denotes p₂.allocator last₂ l' (f x) := by
    refine left₁.along one.along.orderly.sound.names two.along.orderly.sound.names two.along.stands two.along.root
      two.along.inner (fun id resolved => ?_) comes'.same
    obtain ⟨i, v, resolved', found, -, -, aside⟩ := left₁
    cases resolved.symm.trans resolved'
    refine ⟨var?_lt found, fun looked => ?_⟩
    obtain ⟨u, found', isTemp, -⟩ := one.along.orderly.sound.names.tempIs
      ((Level.lookup_eq_some one.along.orderly.sound.names.tempOnce).1 looked)
    cases found.symm.trans found'
    rcases aside with ⟨-, named⟩ | looked'
    · cases isTemp.symm.trans named
    · obtain ⟨j, t, resolvedR, foundR, -, -, asideR⟩ := right
      have inside : M j := ⟨var?_lt foundR, fun looked => apart _ looked resolvedR⟩
      rcases asideR with ⟨named, -⟩ | lookedR
      · cases (lookup_of_named one.along.orderly.sound.names named).symm.trans looked
      · have still := lookup_along orderly.sound.names one.along.orderly.sound.names one.along.stands inside lookedR
        cases still.symm.trans looked
        exact one.loose _ looked' inside
  exact ⟨last₂, m₂, (comes.mono inM (List.nil_subset _)).trans (comes'.mono inN (List.nil_subset _)), left₂, right₂⟩

/-- What the operands of an operation are brought to: numbers on whose words the operation gives the word of the
result, up to a last shift. -/
structure Reconciles (S : Site) (op : ArithmeticOp) (K : VarId → Prop) (l r : String) (p : Progress)
    (l' r' : String) (scale : Option Nat) (p' : Progress) : Prop where
  along : Along K [] p p'
  left : Loose K l' p'.allocator
  right : Loose K r' p'.allocator
  small : ∀ n, scale = some n → n < 32
  runs : S.Hosts p' → ∀ {last m x y z}, Abreast S p last m → Denotes p.allocator last l x →
    Denotes p.allocator last r y → Apart l r p.allocator → Number.apply op x y = some z →
    ∃ last' m' x' y' w, Comes S K [] p' last m last' m' ∧ Denotes p'.allocator last' l' x' ∧
      Denotes p'.allocator last' r' y' ∧ op.onWords x'.word y'.word = some w ∧ z.word = (scale.elim w fun n => w <<< n)

/-- Operands that are at the scale that the operation needs. -/
theorem Reconciles.of_same {op : ArithmeticOp} {kl kr : NumberKind} (orderly : p.Orderly K [])
    (loose : Loose K l p.allocator) (loose' : Loose K r p.allocator)
    (kinds : ∀ {last x y}, Denotes p.allocator last l x → Denotes p.allocator last r y → x.kind = kl ∧ y.kind = kr)
    (value : ∀ {a b z}, Number.apply op ⟨kl, a⟩ ⟨kr, b⟩ = some z → op.onWords a b = some z.word) :
    Reconciles S op K l r p l r none p := by
  refine ⟨.refl orderly, loose, loose', nofun, fun _ last m x y z abreast left right _ result => ?_⟩
  obtain ⟨⟨rfl⟩, ⟨rfl⟩⟩ := kinds left right
  exact ⟨last, m, x, y, z.word, .refl abreast, left, right, value result, rfl⟩

/-- Operands that are made of others. -/
theorem Reconciles.of_both {op : ArithmeticOp} {kl kr : NumberKind} {f g : Number → Number} {l' r' : String}
    {scale : Option Nat} (small : ∀ n, scale = some n → n < 32)
    (both : Along K [] p p₂ ∧ Loose K l' p₂.allocator ∧ Loose K r' p₂.allocator ∧
      (S.Hosts p₂ → ∀ {last m x y}, Abreast S p last m → Denotes p.allocator last l x →
        Denotes p.allocator last r y → Apart l r p.allocator →
        ∃ last' m', Comes S K [] p₂ last m last' m' ∧ Denotes p₂.allocator last' l' (f x) ∧
          Denotes p₂.allocator last' r' (g y)))
    (kinds : ∀ {last x y}, Denotes p.allocator last l x → Denotes p.allocator last r y → x.kind = kl ∧ y.kind = kr)
    (value : ∀ {a b z}, Number.apply op ⟨kl, a⟩ ⟨kr, b⟩ = some z → ∃ w,
      op.onWords (f ⟨kl, a⟩).word (g ⟨kr, b⟩).word = some w ∧ z.word = (scale.elim w fun n => w <<< n)) :
    Reconciles S op K l r p l' r' scale p₂ := by
  obtain ⟨along, loose, loose', runs⟩ := both
  refine ⟨along, loose, loose', small, fun hosts last m x y z abreast left right apart result => ?_⟩
  obtain ⟨⟨rfl⟩, ⟨rfl⟩⟩ := kinds left right
  obtain ⟨w, computed, scaled⟩ := value result
  obtain ⟨last', m', comes, left', right'⟩ := runs hosts abreast left right apart
  exact ⟨last', m', f x, g y, w, comes, left', right', computed, scaled⟩

theorem rescale_produces (orderly : p.Orderly K []) (loose : Loose K name p.allocator)
    (ran : (rescale name).exec c p = .ok (v, p')) :
    Produces S K p v p' fun last y => ∃ x, Denotes p.allocator last name x ∧
      y = ⟨.fixed, x.word.sshiftRight Number.halfFraction⟩ :=
  shifted_produces orderly loose rfl (by decide) ran

theorem reconcile_produces {op : ArithmeticOp} {l' r' : String} {scale : Option Nat} (orderly : p.Orderly K [])
    (loose : Loose K l p.allocator) (loose' : Loose K r p.allocator)
    (ran : (reconcile op l r).exec c p = .ok ((l', r', scale), p')) :
    Reconciles S op K l r p l' r' scale p' := by
  obtain ⟨kl, p₁, first, rest⟩ := exec_bind_ok ran
  obtain ⟨rfl, il, ul, resolved, found, rfl⟩ := exec_arithmeticKind orderly.calm.numeric first
  obtain ⟨kr, p₁, second, last⟩ := exec_bind_ok rest
  obtain ⟨rfl, ir, ur, resolved', found', rfl⟩ := exec_arithmeticKind orderly.calm.numeric second
  have kinds : ∀ {last x y}, Denotes p.allocator last l x → Denotes p.allocator last r y →
      x.kind = ul.kind ∧ y.kind = ur.kind := fun left right =>
    ⟨left.kind_eq resolved found, right.kind_eq resolved' found'⟩
  split at last
  · next left right =>
    cases last
    rw [left, right] at kinds
    refine .of_same orderly loose loose' kinds fun {a b z} result => ?_
    rw [Number.apply_ints, Option.map_eq_some_iff] at result
    obtain ⟨w, computed, rfl⟩ := result
    exact computed
  · next left right =>
    obtain ⟨l', p₁, one, last⟩ := exec_bind_ok last
    obtain ⟨r', p₂, two, last⟩ := exec_bind_ok last
    cases last
    rw [left, right] at kinds
    refine .of_both nofun (both_produce orderly loose loose' (fun orderly loose => rescale_produces orderly loose one)
      fun orderly loose => rescale_produces orderly loose two) kinds fun {a b z} result => ?_
    cases result
    exact ⟨_, rfl, rfl⟩
  · next notInts notFixed =>
    cases last
    refine .of_same orderly loose loose' kinds fun {a b z} result => ?_
    generalize ul.kind = kl at *
    generalize ur.kind = kr at *
    cases kl <;> cases kr
    · exact (notInts rfl rfl).elim
    · cases result
      rfl
    · cases result
      rfl
    · exact (notFixed rfl rfl).elim
  · next left right =>
    cases last
    rw [left, right] at kinds
    refine .of_same orderly loose loose' kinds fun {a b z} result => ?_
    obtain ⟨w, computed, rfl⟩ := Option.map_eq_some_iff.1 result
    exact computed
  · next right =>
    obtain ⟨l', p₁, one, last⟩ := exec_bind_ok last
    obtain ⟨r', p₂, two, last⟩ := exec_bind_ok last
    cases last
    rw [right] at kinds
    refine .of_both (fun n is => by cases is; decide) (both_produce orderly loose loose'
      (fun orderly loose => convert_produces orderly loose one)
      fun orderly loose => rescale_produces orderly loose two) kinds fun {a b z} result => ?_
    generalize ul.kind = kl at result ⊢
    cases kl <;>
    · obtain ⟨w, computed, rfl⟩ := Option.map_eq_some_iff.1 result
      exact ⟨w, computed, rfl⟩
  · rename_i noMul noQuotient notInts _ noRatio
    obtain ⟨l', p₁, one, last⟩ := exec_bind_ok last
    obtain ⟨r', p₂, two, last⟩ := exec_bind_ok last
    cases last
    refine .of_both nofun (both_produce orderly loose loose' (fun orderly loose => convert_produces orderly loose one)
      fun orderly loose => convert_produces orderly loose two) kinds fun {a b z} result => ?_
    rw [Number.apply_fixed (fun ints => notInts ints.1 ints.2) noMul, Option.map_eq_some_iff] at result
    · obtain ⟨w, computed, rfl⟩ := result
      exact ⟨w, computed, rfl⟩
    · rintro rfl
      cases right : ur.kind with
      | fixed => exact noQuotient rfl right
      | int =>
        cases left : ul.kind with
        | fixed => exact noRatio rfl left right
        | int => exact notInts left right

/-- Pieces of code that are emitted one after the other are one. -/
theorem emitAll_append {β : Type} (code more : List MachineInstr) (rest : Gen β) :
    (do emitAll code; emitAll more; rest) = (do emitAll (code ++ more); rest) := by
  have once : ∀ d : Draft, (d.pushAll code.toArray).pushAll more.toArray = d.pushAll (code ++ more).toArray := by
    intro d
    simp [Draft.pushAll]
  have both : (do emitAll code; emitAll more) = emitAll (code ++ more) := by
    unfold emitAll
    rw [← funext once]
    rfl
  rw [← both, bind_assoc]

/-- The kind of the result of an operation is that of the number that it gives. -/
theorem exec_resultKind (numeric : p.allocator.Numeric) (ran : (resultKind l r).exec c p = .ok (kind, p')) :
    p = p' ∧ ∀ {op last x y z}, Denotes p.allocator last l x → Denotes p.allocator last r y →
      Number.apply op x y = some z → z.kind = kind := by
  obtain ⟨refs, p₁, first, ran⟩ := exec_bind_ok ran
  obtain ⟨rfl, rfl⟩ := exec_refs numeric first
  obtain ⟨refs, p₁, second, ran⟩ := exec_bind_ok ran
  obtain ⟨rfl, rfl⟩ := exec_refs numeric second
  obtain ⟨kl, p₁, third, ran⟩ := exec_bind_ok ran
  obtain ⟨rfl, il, ul, resolved, found, rfl⟩ := exec_arithmeticKind numeric third
  obtain ⟨kr, p₁, fourth, ran⟩ := exec_bind_ok ran
  obtain ⟨rfl, ir, ur, resolved', found', rfl⟩ := exec_arithmeticKind numeric fourth
  split at ran
  · next mixed =>
    cases ran
    refine ⟨rfl, fun left right value => ?_⟩
    rw [Number.kind_of_apply value, left.kind_eq resolved found, right.kind_eq resolved' found', if_pos mixed]
  · next ints =>
    cases ran
    refine ⟨rfl, fun left right value => ?_⟩
    rw [Number.kind_of_apply value, left.kind_eq resolved found, right.kind_eq resolved' found', if_neg ints]

/-- An operation on two numbers. -/
theorem combine_produces {op : ArithmeticOp} (orderly : p.Orderly K []) (loose : Loose K l p.allocator)
    (loose' : Loose K r p.allocator) (ran : (combine op l r).exec c p = .ok (v, p')) :
    Produces S K p v p' fun last z => ∃ x y, Denotes p.allocator last l x ∧ Denotes p.allocator last r y ∧
      Apart l r p.allocator ∧ Number.apply op x y = some z := by
  obtain ⟨kind, p₁, first, ran⟩ := exec_bind_ok ran
  obtain ⟨rfl, kinds⟩ := exec_resultKind orderly.calm.numeric first
  obtain ⟨refs, p₁, second, ran⟩ := exec_bind_ok ran
  obtain ⟨rfl, rfl⟩ := exec_refs orderly.calm.numeric second
  obtain ⟨refs, p₁, third, ran⟩ := exec_bind_ok ran
  obtain ⟨rfl, rfl⟩ := exec_refs orderly.calm.numeric third
  obtain ⟨⟨l', r', scale⟩, p₁, scaled, ran⟩ := exec_bind_ok ran
  obtain ⟨a, p₂, fetched, ran⟩ := exec_bind_ok ran
  obtain ⟨b, p₃, fetched', ran⟩ := exec_bind_ok ran
  obtain ⟨⟨⟩, p₄, freed, ran⟩ := exec_bind_ok ran
  obtain ⟨⟨⟩, p₅, freed', ran⟩ := exec_bind_ok ran
  have reconciles := reconcile_produces (S := S) orderly loose loose' scaled
  obtain ⟨along, orderly', loads⟩ := load_two (S := S) reconciles.along.orderly reconciles.left
    reconciles.right fetched fetched' freed freed'
  have own : ∀ {rd : Reg}, rd.isPool = true → ∀ i ∈ op.code rd a b, i.Local := fun inPool =>
    local_code inPool (orderly'.pooled a (by simp)) (orderly'.pooled b (by simp)) op
  have computes : ∃ code : Reg → List MachineInstr, (do
        let (temp, rd) ← newTemp kind (max 0 0)
        emitAll (code rd)
        releaseHolds
        return temp : Gen String).exec c p₅ = .ok (v, p') ∧
      (∀ {rd : Reg}, rd.isPool = true → ∀ i ∈ code rd, i.Local) ∧
      ∀ {m : Machine} {rd : Reg} {w : Word}, rd.isPool = true → Leaves m (op.code rd a b) rd w →
        Leaves m (code rd) rd (scale.elim w fun n => w <<< n) := by
    cases scale with
    | none =>
      exact ⟨fun rd => op.code rd a b, by simpa only using ran, own, fun _ leaves => leaves⟩
    | some n =>
      refine ⟨fun rd => op.code rd a b ++ [.shift .sll rd rd n], by simpa only [emit_eq, emitAll_append] using ran,
        fun inPool => List.forall_mem_append.2 ⟨own inPool, ?_⟩, fun {m rd w} inPool leaves =>
        leaves.append fun {mid} holds => ?_⟩
      · simpa using local_shift (Reg.ne_returnAddress inPool) (Reg.ne_returnAddress inPool)
      have shifted := leaves_shift (m := mid) (a := rd) inPool (reconciles.small n rfl) .left
      rwa [holds] at shifted
  obtain ⟨code, ran, own, computed⟩ := computes
  obtain ⟨along', loose, runs⟩ := compute_temp (S := S) orderly' rfl own ran
  refine ⟨(reconciles.along.trans along).trans along', loose, fun hosts last m z abreast => ?_⟩
  rintro ⟨x, y, left, right, apart, result⟩
  have hosts' := hosts.before along'
  obtain ⟨last₁, m₁, x', y', w, comes, left', right', value, word⟩ :=
    reconciles.runs (hosts'.before along) abreast left right apart result
  obtain ⟨m₂, comes', operand, operand'⟩ := loads hosts' comes.abreast left' right'
  obtain ⟨last₃, m₃, comes'', denotes⟩ := runs hosts comes'.abreast (w := scale.elim w fun n => w <<< n)
    fun {m' rd} inPool loose _ still => by
      have leaves : Leaves m' (op.code rd a b) rd w := by
        refine leaves_code inPool (orderly'.pooled a (by simp)) (orderly'.pooled b (by simp)) ?_ ?_ ?_
        · rintro rfl
          exact loose (by simp)
        · rintro rfl
          exact loose (by simp)
        · rw [still a (by simp), still b (by simp), operand, operand']
          exact value
      exact computed inPool leaves
  refine ⟨last₃, m₃, (comes.trans comes').trans comes'', ?_⟩
  rw [← word, ← kinds left right result] at denotes
  exact denotes

/-! ### Other operations -/

theorem addImmediate_produces {n : Int} (orderly : p.Orderly K []) (loose : Loose K name p.allocator)
    (ran : (addImmediate name n).exec c p = .ok (v, p')) :
    Produces S K p v p' fun last y => ∃ x, Denotes p.allocator last name x ∧ y = ⟨x.kind, x.word + Word.ofInt n⟩ := by
  obtain ⟨refs, p₁, first, ran⟩ := exec_bind_ok ran
  obtain ⟨rfl, rfl⟩ := exec_refs orderly.calm.numeric first
  obtain ⟨kind, p₁, second, ran⟩ := exec_bind_ok ran
  obtain ⟨rfl, id, u, resolved, found, rfl⟩ := exec_kind second
  have produces := unary_produces (S := S) (g := fun w => w + Word.ofInt n) orderly loose rfl
    (fun inPool inPool' => local_addi (Reg.ne_returnAddress inPool) (Reg.ne_returnAddress inPool')) (fun inPool _ => leaves_addi inPool n) ran
  refine ⟨produces.along, produces.loose, fun hosts last m y abreast => ?_⟩
  rintro ⟨x, denotes, rfl⟩
  exact produces.runs hosts abreast ⟨x, denotes, by rw [denotes.kind_eq resolved found]⟩

/-- A shift keeps the kind of what it shifts. -/
theorem shiftName_produces {direction : ShiftDirection} {amount : Nat} (orderly : p.Orderly K [])
    (loose : Loose K name p.allocator) (inside : amount < 32)
    (ran : (do
      let kind ← Gen.alloc (Alloc.kind name)
      let refs ← Gen.alloc (Alloc.refs name)
      shifted direction name amount kind refs : Gen String).exec c p = .ok (v, p')) :
    Produces S K p v p' fun last y => ∃ x, Denotes p.allocator last name x ∧
      y = ⟨x.kind, direction.onWord x.word amount⟩ := by
  obtain ⟨kind, p₁, first, ran⟩ := exec_bind_ok ran
  obtain ⟨rfl, id, u, resolved, found, rfl⟩ := exec_kind first
  obtain ⟨refs, p₁, second, ran⟩ := exec_bind_ok ran
  obtain ⟨rfl, rfl⟩ := exec_refs orderly.calm.numeric second
  have produces := shifted_produces (S := S) orderly loose rfl inside ran
  refine ⟨produces.along, produces.loose, fun hosts last m y abreast => ?_⟩
  rintro ⟨x, denotes, rfl⟩
  exact produces.runs hosts abreast ⟨x, denotes, by rw [denotes.kind_eq resolved found]⟩

theorem negateName_produces (orderly : p.Orderly K []) (loose : Loose K name p.allocator)
    (ran : (do
      let kind ← Gen.alloc (Alloc.kind name)
      let rs ← fetch name
      free name
      let (temp, rd) ← newTemp kind 0
      Gen.emit (.alu .sub rd Reg.zero rs)
      releaseHolds
      return temp : Gen String).exec c p = .ok (v, p')) :
    Produces S K p v p' fun last y => ∃ x, Denotes p.allocator last name x ∧ y = ⟨x.kind, -x.word⟩ := by
  obtain ⟨kind, p₁, first, ran⟩ := exec_bind_ok ran
  obtain ⟨rfl, id, u, resolved, found, rfl⟩ := exec_kind first
  have produces := unary_produces (S := S) (g := fun w => -w) orderly loose rfl
    (fun inPool inPool' => local_alu (Reg.ne_returnAddress inPool) (by decide) (Reg.ne_returnAddress inPool'))
    leaves_negation ran
  refine ⟨produces.along, produces.loose, fun hosts last m y abreast => ?_⟩
  rintro ⟨x, denotes, rfl⟩
  exact produces.runs hosts abreast ⟨x, denotes, by rw [denotes.kind_eq resolved found]⟩

end Gen

end SmallC
