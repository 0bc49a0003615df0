import SmallC.Proofs.Parsing.Statements

/-!
A parsed source gives no function two bodies. The outermost scope remembers which names stand for functions
with bodies; only a definition changes what it remembers, and it is refused where the name is among them.
-/
namespace SmallC

/-- Whether a name stands for a function with a body. -/
def Symbol.isDefined (s : Symbol) : Bool :=
  match s.entity with
  | .function signature => signature.isDefined
  | _ => false

/-- The name of the function that a statement gives a body. -/
def Stmt.definedName? : Stmt → Option String
  | .function _ name _ _ (some _) _ => some name
  | _ => none

theorem Stmt.definedName?_of_noFunction {s : Stmt} (noFunction : s.function? = none) : s.definedName? = none := by
  cases s with
  | function => cases noFunction
  | _ => rfl

namespace Scopes

variable {σ mid σ' : Scopes} {name : String} {names more : List String}

/-- Whether a name stands for a function with a body in the outermost scope. -/
def Defines (σ : Scopes) (name : String) : Prop := ∃ s, σ.symbolAt? 0 name = some s ∧ s.isDefined = true

/-- What parsing comes to in the outermost scope where it gives functions of some names bodies: none of them
had one before, and all have one from then on. -/
structure Grows (σ σ' : Scopes) (names : List String) : Prop where
  depth : σ'.depth = 0
  distinct : names.Nodup
  fresh : ∀ name ∈ names, ¬ σ.Defines name
  defined : ∀ name ∈ names, σ'.Defines name
  kept : ∀ name, σ.Defines name → σ'.Defines name

theorem Grows.of_agrees (depth : σ'.depth = 0) (agrees : σ.Agrees 1 σ') : σ.Grows σ' [] := by
  refine ⟨depth, .nil, by simp, by simp, fun name defines => ?_⟩
  rwa [Defines, agrees 0 Nat.one_pos]

theorem Grows.trans (first : σ.Grows mid names) (second : mid.Grows σ' more) : σ.Grows σ' (names ++ more) where
  depth := second.depth
  distinct := List.nodup_append.2 ⟨first.distinct, second.distinct, fun _ member _ member' same =>
    second.fresh _ member' (same ▸ first.defined _ member)⟩
  fresh name member := (List.mem_append.1 member).elim (first.fresh name) fun member defines =>
    second.fresh name member (first.kept name defines)
  defined name member := (List.mem_append.1 member).elim (fun member => second.kept name (first.defined name member))
    (second.defined name)
  kept name defines := second.kept name (first.kept name defines)

theorem Agrees.defines_iff (agrees : σ.Agrees 1 σ') : σ'.Defines name ↔ σ.Defines name := by
  rw [Defines, Defines, agrees 0 Nat.one_pos]

/-- A declaration, behind what leaves the outermost scope, of a name that stands for no function with a body. -/
theorem Grows.declare (depth : mid.depth = 0) (agrees : σ.Agrees 1 mid) (fresh : ¬ σ.Defines name)
    (symbol : Symbol) : σ.Grows (mid.add name symbol) (if symbol.isDefined then [name] else []) := by
  have kept : ∀ other, σ.Defines other → (mid.add name symbol).Defines other := by
    intro other defines
    have apart : other ≠ name := fun same => fresh (same ▸ defines)
    rw [Defines, symbolAt?_add fun _ => apart]
    exact agrees.defines_iff.2 defines
  split
  · next defined =>
    refine ⟨depth, List.pairwise_singleton _ name, fun other member => ?_, fun other member => ?_, kept⟩
    · rwa [List.mem_singleton.1 member]
    · rw [List.mem_singleton.1 member]
      exact ⟨symbol, depth ▸ symbolAt?_add_self name symbol mid, defined⟩
  · exact ⟨depth, .nil, by simp, by simp, kept⟩

end Scopes

namespace Parser

open Scopes

variable {α β : Type} {σ σ' : Scopes} {tokens : List Lexeme}

theorem run_bind_inv {act : ParseM α} {f : α → ParseM β} {y : β} (ran : (act >>= f).run σ = .ok (y, σ')) :
    ∃ x mid, act.run σ = .ok (x, mid) ∧ (f x).run mid = .ok (y, σ') := by
  change (act.run σ).bind (fun done => (f done.1).run done.2) = _ at ran
  cases first : act.run σ with
  | error error =>
    rw [first] at ran
    cases ran
  | ok done =>
    rw [first] at ran
    exact ⟨done.1, done.2, rfl, ran⟩

/-- What stops parsing on a condition has not stopped it. -/
theorem run_refuse_inv {p : Prop} [Decidable p] {error : CompileError} {f : Unit → ParseM β} {y : β}
    (ran : (if p then (throw error : ParseM Unit) >>= f else f ()).run σ = .ok (y, σ')) :
    ¬ p ∧ (f ()).run σ = .ok (y, σ') := by
  split at ran
  · cases ran
  · next fails => exact ⟨fails, ran⟩

theorem not_defines_of_findLocal?_none (depth : σ.depth = 0) {name : String} (undeclared : σ.findLocal? name = none) :
    ¬ σ.Defines name := by
  rintro ⟨s, found, -⟩
  rw [← depth] at found
  cases undeclared.symm.trans found

theorem checkRedefinition_inv {line : Nat} {name : String}
    (ran : (checkRedefinition line name).run σ = .ok ((), σ')) : σ = σ' ∧ σ.findLocal? name = none := by
  obtain ⟨_, _, got, ran⟩ := run_bind_inv ran
  cases got
  split at ran
  · cases ran
  · next undeclared =>
    cases ran
    exact ⟨rfl, undeclared⟩

theorem checkSignature_inv {line : Nat} {name : String} {signature : Signature} (depth : σ.depth = 0)
    (ran : (checkSignature line name signature).run σ = .ok ((), σ')) : σ = σ' ∧ ¬ σ.Defines name := by
  obtain ⟨_, _, got, ran⟩ := run_bind_inv ran
  cases got
  split at ran
  · next undeclared =>
    cases ran
    exact ⟨rfl, not_defines_of_findLocal?_none depth undeclared⟩
  · next symbol found =>
    split at ran
    · next earlier is =>
      split at ran
      · cases ran
      · next header =>
        split at ran
        · cases ran
        · cases ran
          refine ⟨rfl, ?_⟩
          rintro ⟨s, found', defined⟩
          rw [← depth] at found'
          cases found.symm.trans found'
          rw [Symbol.isDefined, is] at defined
          exact header defined
    · obtain ⟨rfl, undeclared⟩ := checkRedefinition_inv ran
      exact ⟨rfl, not_defines_of_findLocal?_none depth undeclared⟩

/-- A variable takes the name of no function with a body. -/
theorem parseVariable_grows {endLine line : Nat} {ty : TypeSpec} {name : String} (plain : Plain tokens)
    (depth : σ.depth = 0) {p : Parsed Stmt tokens.length}
    (ran : (parseVariable endLine line ty name tokens).run σ = .ok (p, σ')) :
    σ.Grows σ' p.value.definedName?.toList := by
  unfold parseVariable at ran
  obtain ⟨-, ran⟩ := run_refuse_inv ran
  obtain ⟨_, _, checked, ran⟩ := run_bind_inv ran
  obtain ⟨rfl, undeclared⟩ := checkRedefinition_inv checked
  obtain ⟨_, _, valued, ran⟩ := run_bind_inv ran
  obtain ⟨⟨depth', agrees⟩, -⟩ := parseVariableEnd_reads (e := 1) endLine name plain _ _ _ depth valued
  cases ran
  exact .declare depth' agrees (not_defines_of_findLocal?_none depth undeclared) _

/-- An array takes the name of no function with a body. -/
theorem parseArray_grows {endLine line : Nat} {ty : TypeSpec} {name : String} (plain : Plain tokens)
    (depth : σ.depth = 0) {p : Parsed Stmt tokens.length}
    (ran : (parseArray endLine line ty name tokens).run σ = .ok (p, σ')) :
    σ.Grows σ' p.value.definedName?.toList := by
  obtain ⟨_, _, checked, ran⟩ := run_bind_inv ran
  obtain ⟨rfl, undeclared⟩ := checkRedefinition_inv checked
  obtain ⟨⟨dims, behind, sized⟩, mid, measured, ran⟩ := run_bind_inv ran
  obtain ⟨⟨depth', agrees⟩, plain⟩ := parseDimensions_reads (e := 1) endLine line name plain _ _ _ depth measured
  obtain ⟨⟨init, behind', initialised⟩, mid', filled, ran⟩ := run_bind_inv ran
  obtain ⟨⟨depth', agrees'⟩, plain⟩ := parseInitializer_reads (e := 1) endLine plain _ _ _ depth' filled
  obtain ⟨-, ran⟩ := run_refuse_inv ran
  obtain ⟨⟨_, rest, fewer⟩, mid'', ended, ran⟩ := run_bind_inv ran
  obtain ⟨⟨depth', agrees''⟩, -⟩ := expect_reads (e := 1) endLine _ plain.2 _ _ _ depth' ended
  cases ran
  exact .declare depth' ((agrees.trans agrees').trans agrees'') (not_defines_of_findLocal?_none depth undeclared) _

/-- A function that gets a body had none before. -/
theorem parseFunction_grows {line : Nat} {ret : TypeSpec} {name : String} {isInline : Bool}
    {around : Surroundings} (plain : Plain tokens) (depth : σ.depth = 0) {p : Parsed Stmt tokens.length}
    (ran : (parseFunction around line ret name isInline tokens).run σ = .ok (p, σ')) :
    σ.Grows σ' p.value.definedName?.toList := by
  rw [parseFunction] at ran
  obtain ⟨⟨params, behind, fewer⟩, mid, listed, ran⟩ := run_bind_inv ran
  obtain ⟨⟨depth, agrees⟩, plain⟩ := parseParameters_reads (e := 1) _ plain _ _ _ depth listed
  obtain ⟨-, ran⟩ := run_refuse_inv ran
  obtain ⟨_, _, checked, ran⟩ := run_bind_inv ran
  obtain ⟨rfl, undefined⟩ := checkSignature_inv depth checked
  split at ran
  · cases ran
    exact .declare depth agrees (undefined ∘ agrees.defines_iff.2) _
  · obtain ⟨_, _, got, ran⟩ := run_bind_inv ran
    cases got
    obtain ⟨-, ran⟩ := run_refuse_inv ran
    obtain ⟨_, _, declared, ran⟩ := run_bind_inv ran
    cases declared
    have defined := Grows.declare depth agrees (undefined ∘ agrees.defines_iff.2)
      ⟨.function ⟨ret, params.map Param.ty, true, isInline⟩, line⟩
    obtain ⟨⟨depth', agrees'⟩, named⟩ :=
      Reads.inScope (Q := fun p : Parsed Stmt _ => p.value.definedName? = some name) (by
        refine (declareAll_reads line params).bind fun _ _ => (expect_reads _ _ plain.2).bind fun p inside => ?_
        exact (parseBlock_reads { around with inFunction := true } inside).bind fun p _ => .pure rfl)
      _ _ _ defined.depth ran
    rw [named]
    exact defined.trans (.of_agrees depth' agrees')

theorem parseDefinition_grows {around : Surroundings} {isInline : Bool} (plain : Plain tokens)
    (depth : σ.depth = 0) {p : Parsed Stmt tokens.length}
    (ran : (parseDefinition around isInline tokens).run σ = .ok (p, σ')) :
    σ.Grows σ' p.value.definedName?.toList := by
  rw [parseDefinition] at ran
  obtain ⟨⟨ty, behindType, typed⟩, mid, begun, ran⟩ := run_bind_inv ran
  obtain ⟨⟨depth, agrees⟩, plain⟩ := parseType_reads (e := 1) _ plain _ _ _ depth begun
  obtain ⟨⟨⟨name, line⟩, behindName, called⟩, mid', named, ran⟩ := run_bind_inv ran
  obtain ⟨⟨depth', agrees'⟩, plain⟩ := expectIdentifier_reads (e := 1) _ plain _ _ _ depth named
  refine (Grows.of_agrees depth' (agrees.trans agrees')).trans ?_
  dsimp only at ran
  split at ran
  · obtain ⟨q, _, defined, ran⟩ := run_bind_inv ran
    cases ran
    exact parseFunction_grows plain.2 depth' defined
  · split at ran
    · cases ran
    · split at ran
      · obtain ⟨q, _, defined, ran⟩ := run_bind_inv ran
        cases ran
        exact parseArray_grows plain.2 depth' defined
      · obtain ⟨q, _, defined, ran⟩ := run_bind_inv ran
        cases ran
        exact parseVariable_grows plain.2 depth' defined

theorem startsDefinition_inv {token : Token} (starts : startsDefinition token = true) :
    token = .keyword .inlineWord ∨ ∃ base, token = .type base := by
  unfold startsDefinition at starts
  split at starts
  · exact .inr ⟨_, rfl⟩
  · exact .inl rfl
  · cases starts

/-- A statement of the outermost scope. Only one that starts a definition declares anything there. -/
theorem parseStatement_grows {around : Surroundings} {l : Lexeme} {rest : List Lexeme} (plain : Plain (l :: rest))
    (depth : σ.depth = 0) {p : Parsed (Option Stmt) (rest.length + 1)}
    (ran : (parseStatement around l rest).run σ = .ok (p, σ')) :
    σ.Grows σ' (p.value.bind Stmt.definedName?).toList := by
  cases starts : startsDefinition l.token with
  | false =>
    obtain ⟨⟨depth', agrees⟩, leaves⟩ := parseStatement_reads around (.inr ⟨rfl, starts⟩) plain σ p σ' depth ran
    have nothing : p.value.bind Stmt.definedName? = none := by
      cases is : p.value with
      | none => rfl
      | some s => exact Stmt.definedName?_of_noFunction ((leaves.1 s is).2 starts)
    rw [nothing]
    exact .of_agrees depth' agrees
  | true =>
    rcases startsDefinition_inv starts with is | ⟨base, is⟩
    · simp only [parseStatement, is] at ran
      obtain ⟨q, _, defined, ran⟩ := run_bind_inv ran
      obtain ⟨-, ran⟩ := run_refuse_inv ran
      cases ran
      exact parseDefinition_grows plain.tail depth defined
    · simp only [parseStatement, is] at ran
      obtain ⟨q, _, defined, ran⟩ := run_bind_inv ran
      cases ran
      exact parseDefinition_grows plain depth defined

theorem parseUnit_grows {endLine : Nat} {tokens : List Lexeme} (plain : Plain tokens) {σ σ' : Scopes}
    (depth : σ.depth = 0) {unit : List Stmt} (ran : (parseUnit endLine tokens).run σ = .ok (unit, σ')) :
    σ.Grows σ' (unit.filterMap Stmt.definedName?) := by
  match _cut : tokens, plain with
  | [], plain =>
    rw [parseUnit] at ran
    cases ran
    exact .of_agrees depth (.refl 1 σ)
  | l :: rest, plain =>
    rw [parseUnit] at ran
    obtain ⟨-, ran⟩ := run_refuse_inv ran
    obtain ⟨⟨st, behind, fewer⟩, mid, first, ran⟩ := run_bind_inv ran
    have grows := parseStatement_grows plain depth first
    obtain ⟨-, leaves⟩ := parseStatement_reads _ (.inl (Nat.zero_le _)) plain _ _ _ depth first
    obtain ⟨others, _, later, ran⟩ := run_bind_inv ran
    cases ran
    have names : (st.toList ++ others).filterMap Stmt.definedName? =
        (st.bind Stmt.definedName?).toList ++ others.filterMap Stmt.definedName? := by
      rw [List.filterMap_append]
      cases st with
      | none => rfl
      | some s => cases named : s.definedName? <;> simp [named]
    rw [names]
    exact grows.trans (parseUnit_grows leaves.2 grows.depth later)
termination_by tokens.length

end Parser

/-- No two functions of a parsed source have bodies and the same name. -/
theorem parseSource_definedNames_nodup {source : String} {unit : TranslationUnit}
    (parsed : parseSource source = .ok unit) : (unit.statements.filterMap Stmt.definedName?).Nodup := by
  obtain ⟨_, _, _, plain, ran⟩ := parseSource_inv parsed
  exact (Parser.parseUnit_grows plain rfl ran).distinct

end SmallC
