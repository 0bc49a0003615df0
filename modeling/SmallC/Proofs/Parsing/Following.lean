import Mathlib.Tactic
import SmallC.Parser.Indexed.Statement

/-!
Parsing on positions against parsing on lists. Tokens of a list are a span of the source, and a parser on positions follows
one on lists if it fails with the same fault wherever that one fails, and else has the same result and the same declarations
in scope and goes on where the tokens begin that are left. What follows a parser on lists looks at no position without a
token and ends, since the other outcomes are none of a list's.
-/
namespace SmallC.Parser.Indexed

variable {α β γ δ : Type} {toks tokens rest : List Lexeme} {l : Lexeme} {lo mid hi n : Nat}

/-! ### Spans -/

/-- Tokens are those between two positions. -/
def Spans (toks : List Lexeme) (lo hi : Nat) (tokens : List Lexeme) : Prop :=
  ∃ before behind, toks = before ++ (tokens ++ behind) ∧ before.length = lo ∧ lo + tokens.length = hi

/-- Tokens are those from a position to the end. -/
abbrev Stands (toks : List Lexeme) (position : Nat) (tokens : List Lexeme) : Prop :=
  Spans toks position toks.length tokens

namespace Spans

theorem length (spans : Spans toks lo hi tokens) : lo + tokens.length = hi := by
  obtain ⟨before, behind, -, -, size⟩ := spans
  exact size

theorem within (spans : Spans toks lo hi tokens) : hi ≤ toks.length := by
  obtain ⟨before, behind, rfl, rfl, rfl⟩ := spans
  simp only [List.length_append]
  omega

theorem whole (toks : List Lexeme) : Stands toks 0 toks :=
  ⟨[], [], by simp, rfl, Nat.zero_add _⟩

theorem eq (spans : Spans toks lo hi tokens) : tokens = (toks.take hi).drop lo := by
  obtain ⟨before, behind, rfl, rfl, rfl⟩ := spans
  rw [← List.append_assoc, List.take_left' (List.length_append ..), List.drop_left]

theorem split {first : List Lexeme} (spans : Spans toks lo hi (first ++ rest)) :
    Spans toks lo (lo + first.length) first ∧ Spans toks (lo + first.length) hi rest := by
  obtain ⟨before, behind, rfl, rfl, rfl⟩ := spans
  refine ⟨⟨before, rest ++ behind, by simp, rfl, rfl⟩, ⟨before ++ first, behind, by simp, by simp, ?_⟩⟩
  simp only [List.length_append]
  omega

theorem getElem? (spans : Spans toks lo hi (l :: rest)) : toks[lo]? = some l := by
  obtain ⟨before, behind, rfl, rfl, -⟩ := spans
  simp

theorem next (spans : Spans toks lo hi (l :: rest)) : Spans toks (lo + 1) hi rest :=
  (show Spans toks lo hi ([l] ++ rest) from spans).split.2

theorem empty (spans : Spans toks lo hi tokens) : Spans toks lo lo [] := by
  exact (show Spans toks lo hi ([] ++ tokens) from spans).split.1

theorem nonempty (spans : Spans toks lo hi (l :: rest)) : lo < hi := by
  have size := spans.length
  simp only [List.length_cons] at size
  omega

theorem tokenAt (spans : Spans toks lo hi (l :: rest)) : tokenAt toks lo = .ok l := by
  rw [Indexed.tokenAt, spans.getElem?]
  rfl

theorem peek (spans : Spans toks lo hi (l :: rest)) : peek toks lo = some l.token := by
  rw [Indexed.peek, spans.getElem?]
  rfl

theorem lineAt (spans : Spans toks lo hi (l :: rest)) : lineAt toks lo = l.line := by
  rw [Indexed.lineAt, spans.getElem?]
  rfl

end Spans

theorem Stands.getElem? (stands : Stands toks n []) : toks[n]? = none := by
  have size := stands.length
  exact List.getElem?_eq_none (by simpa using size.ge)

theorem Stands.peek (stands : Stands toks n []) : peek toks n = none := by
  rw [Indexed.peek, Stands.getElem? stands]
  rfl

/-- Fewer tokens are left further on. -/
theorem Stands.lt {more : List Lexeme} (stands : Stands toks lo tokens) (behind : Stands toks hi more)
    (fewer : more.length < tokens.length) : lo < hi := by
  have := stands.length
  have := behind.length
  omega

/-- What is left says where it begins. -/
theorem Stands.unique {i j : Nat} (stands : Stands toks i tokens) (stands' : Stands toks j tokens) : i = j := by
  have size := stands.length
  have size' := stands'.length
  omega

/-- The line of the last token. -/
def endLine (toks : List Lexeme) : Nat := (toks.getLast?.map Lexeme.line).getD 1

theorem Stands.lineAt (stands : Stands toks n tokens) : lineAt toks n = lineOr (endLine toks) tokens := by
  cases tokens with
  | nil =>
    rw [Indexed.lineAt, Stands.getElem? stands]
    rfl
  | cons l rest => exact Spans.lineAt stands

/-- An expression starts on the line of its first token. -/
theorem Spans.lineOr_eq (spans : Spans toks lo hi tokens) (nonempty : tokens ≠ []) (line : Nat) :
    lineOr line tokens = Indexed.lineAt toks lo := by
  cases tokens with
  | nil => exact absurd rfl nonempty
  | cons l rest => exact spans.lineAt.symm

/-! ### Parsers that look at no position -/

@[simp] theorem embed_throw (e : CompileError) : embed (throw e : ParseM α) = throw (.fault e) := rfl

@[simp] theorem embed_failParse (line : Nat) (fault : ParseFault) :
    embed (Parser.failParse line fault : ParseM α) = failParse line fault := rfl

@[simp] theorem embed_failSemantic (line : Nat) (fault : SemanticFault) :
    embed (Parser.failSemantic line fault : ParseM α) = failSemantic line fault := rfl

@[simp] theorem embed_bind (act : ParseM α) (f : α → ParseM β) :
    embed (act >>= f) = embed act >>= fun x => embed (f x) := by
  funext s
  change ((act s).bind fun done => f done.1 done.2).mapError Halt.fault =
    ((act s).mapError Halt.fault).bind fun done => (f done.1 done.2).mapError Halt.fault
  cases act s <;> rfl

@[simp] theorem embed_map (f : α → β) (act : ParseM α) : embed (f <$> act) = f <$> embed act := by
  rw [map_eq_pure_bind, map_eq_pure_bind, embed_bind]
  rfl

@[simp] theorem failParse_bind (line : Nat) (fault : ParseFault) (f : α → CursorM β) :
    failParse line fault >>= f = failParse line fault := rfl

@[simp] theorem throw_bind (halt : Halt) (f : α → CursorM β) : (throw halt : CursorM α) >>= f = throw halt := rfl

@[simp] theorem look_ok (x : α) (f : α → CursorM β) : (liftM (Except.ok x : Except Halt α) : CursorM α) >>= f = f x := rfl

/-- What a result is like, if there is one. -/
def Ensures (Q : α → Prop) (act : CursorM α) : Prop := ∀ s x s', act s = .ok (x, s') → Q x

namespace Ensures

variable {Q : α → Prop} {R : β → Prop} {act other : CursorM α}

theorem pure {x : α} (holds : Q x) : Ensures Q (Pure.pure x) := by
  intro s y s' ran
  cases ran
  exact holds

theorem any (act : CursorM α) : Ensures (fun _ => True) act := fun _ _ _ _ => trivial

theorem throw (halt : Halt) : Ensures Q (MonadExcept.throw halt) := by
  intro s x s' ran
  cases ran

theorem failSemantic (line : Nat) (fault : SemanticFault) : Ensures Q (Indexed.failSemantic line fault) := .throw _

theorem bind {f : α → CursorM β} (first : Ensures Q act) (rest : ∀ x, Q x → Ensures R (f x)) :
    Ensures R (act >>= f) := by
  intro s y s' ran
  change ((act s).bind fun done => f done.1 done.2) = _ at ran
  cases done : act s with
  | error halt =>
    rw [done] at ran
    cases ran
  | ok r =>
    rw [done] at ran
    exact rest r.1 (first s _ _ done) _ _ _ ran

theorem look (look : Except Halt α) : Ensures (fun x => look = .ok x) (liftM look : CursorM α) := by
  intro s x s' ran
  cases look with
  | error halt => cases ran
  | ok y =>
    cases ran
    rfl

theorem ite {c : Prop} [Decidable c] (yes : c → Ensures Q act) (no : ¬ c → Ensures Q other) :
    Ensures Q (if c then act else other) := by
  split
  · next holds => exact yes holds
  · next fails => exact no fails

theorem mono {Q' : α → Prop} (ensures : Ensures Q act) (weaker : ∀ x, Q x → Q' x) : Ensures Q' act :=
  fun s x s' ran => weaker x (ensures s x s' ran)

/-- What follows may take the result to be as it is. -/
theorem bind_congr {f g : α → CursorM β} (ensures : Ensures Q act) (same : ∀ x, Q x → f x = g x) :
    act >>= f = act >>= g := by
  funext s
  change ((act s).bind fun done => f done.1 done.2) = (act s).bind fun done => g done.1 done.2
  cases done : act s with
  | error halt => rfl
  | ok r => exact congrFun (same r.1 (ensures s _ _ done)) r.2

end Ensures

/-- A round goes on in a state of one kind, or ends with a result of another. -/
def Round.Keeps (I : γ → Prop) (Q : β → Prop) : Round γ β → Prop
  | .again state => I state
  | .done result => Q result

section

variable {I : γ → Prop} {Q : β → Prop} {body body' : γ → CursorM (Round γ β)} {state : γ}

end

/-! ### Following -/

/-- Parsing on positions does what parsing on lists does, with results that are related. -/
def Follows (R : α → β → Prop) (act : CursorM α) (p : ParseM β) : Prop :=
  ∀ s, match p s with
    | .ok (y, s') => ∃ x, act s = .ok (x, s') ∧ R x y
    | .error e => act s = .error (.fault e)

namespace Follows

variable {R : α → β → Prop} {S : γ → δ → Prop} {act other : CursorM α} {p q : ParseM β}

theorem pure {x : α} {y : β} (related : R x y) : Follows R (Pure.pure x) (Pure.pure y) := fun _ => ⟨x, rfl, related⟩

theorem failParse (line : Nat) (fault : ParseFault) :
    Follows R (Indexed.failParse line fault) (Parser.failParse line fault) := fun _ => rfl

theorem failSemantic (line : Nat) (fault : SemanticFault) :
    Follows R (Indexed.failSemantic line fault) (Parser.failSemantic line fault) := fun _ => rfl

theorem throw (e : CompileError) : Follows R (MonadExcept.throw (Halt.fault e)) (MonadExcept.throw e) := fun _ => rfl

theorem embed (p : ParseM α) : Follows Eq (embed p) p := by
  intro s
  rw [Indexed.embed]
  cases p s <;> simp [Except.mapError]

theorem mono {R' : α → β → Prop} (follows : Follows R act p) (weaker : ∀ x y, R x y → R' x y) : Follows R' act p := by
  intro s
  have here := follows s
  split at here
  · obtain ⟨x, ran, related⟩ := here
    exact ⟨x, ran, weaker _ _ related⟩
  · exact here

theorem bind {f : α → CursorM γ} {g : β → ParseM δ} (first : Follows R act p)
    (rest : ∀ x y, R x y → Follows S (f x) (g y)) : Follows S (act >>= f) (p >>= g) := by
  intro s
  have here := first s
  change match (p s).bind fun done => g done.1 done.2 with
    | .ok (y, s') => ∃ x, ((act s).bind fun done => f done.1 done.2) = .ok (x, s') ∧ S x y
    | .error e => ((act s).bind fun done => f done.1 done.2) = .error (.fault e)
  split at here
  · next y s' ran =>
    obtain ⟨x, ran', related⟩ := here
    rw [ran, ran']
    exact rest x y related s'
  · next e ran =>
    rw [ran, here]
    rfl

theorem ite {c c' : Prop} [Decidable c] [Decidable c'] (same : c ↔ c') (yes : c' → Follows R act p)
    (no : ¬ c' → Follows R other q) : Follows R (if c then act else other) (if c' then p else q) := by
  by_cases holds : c'
  · rw [if_pos holds, if_pos (same.2 holds)]
    exact yes holds
  · rw [if_neg holds, if_neg fun is => holds (same.1 is)]
    exact no holds

/-- What stops parsing on a condition. -/
theorem refuse {c : Prop} [Decidable c] {f : Unit → CursorM α} {g : Unit → ParseM β} {stop : CursorM Unit}
    {stop' : ParseM Unit} (stops : Follows (fun _ _ => False) stop stop') (rest : ¬ c → Follows R (f ()) (g ())) :
    Follows R (if c then stop >>= f else f ()) (if c then stop' >>= g else g ()) :=
  .ite Iff.rfl (fun _ => stops.bind fun _ _ absurd => absurd.elim) rest

theorem inScope (follows : Follows R act p) : Follows R (Indexed.inScope act) (Parser.inScope p) := by
  have modifies : ∀ f : Scopes → Scopes, Follows (fun (_ : Unit) (_ : Unit) => True) (modify f) (modify f) :=
    fun f s => ⟨(), rfl, trivial⟩
  exact (modifies _).bind fun _ _ _ => follows.bind fun _ _ related => (modifies _).bind fun _ _ _ => .pure related

theorem get {f : Scopes → CursorM α} {g : Scopes → ParseM β} (rest : ∀ s, Follows R (f s) (g s)) :
    Follows R (MonadState.get >>= f) (MonadState.get >>= g) := fun s => rest s s

/-- What was looked for was found. -/
theorem found {x : γ} {look : Except Halt γ} {f : γ → CursorM α} (finds : look = .ok x) (rest : Follows R (f x) p) :
    Follows R ((liftM look : CursorM γ) >>= f) p := by
  rwa [finds, look_ok]

/-- The outcome where one list parser is followed: its result, or its fault. -/
theorem outcome (follows : Follows R act p) (s : Scopes) :
    (∃ x s' y, act s = .ok (x, s') ∧ p s = .ok (y, s') ∧ R x y) ∨ ∃ e, act s = .error (.fault e) ∧ p s = .error e := by
  have here := follows s
  split at here
  · next y s' ran =>
    obtain ⟨x, ran', related⟩ := here
    exact .inl ⟨x, s', y, ran', ran, related⟩
  · next e ran => exact .inr ⟨e, here, ran⟩

end Follows

/-- The result is that of the list parser, and parsing goes on where the tokens begin that it leaves. -/
def At (toks : List Lexeme) (r : α × Nat) (p : Parsed α n) : Prop := r.1 = p.value ∧ Stands toks r.2 p.rest

/-- What encloses tokens in a span. -/
theorem Spans.enclosed {opener : Lexeme} {depth : Nat} {e : Enclosed} (spans : Spans toks lo hi tokens)
    (found : Parser.findClose opener depth tokens = .ok e) :
    Spans toks lo (lo + e.inside.length) e.inside ∧ toks[lo + e.inside.length]? = some e.closer ∧
      Spans toks (lo + e.inside.length + 1) hi e.after := by
  rw [findClose_eq found] at spans
  exact ⟨spans.split.1, spans.split.2.getElem?, spans.split.2.next⟩

theorem Spans.ended {line depth : Nat} {e : Ended} (spans : Spans toks lo hi tokens)
    (found : findSemicolon line depth tokens = .ok e) :
    Spans toks lo (lo + e.before.length) e.before ∧ toks[lo + e.before.length]? = some e.semicolon ∧
      Spans toks (lo + e.before.length + 1) hi e.after := by
  rw [findSemicolon_eq found] at spans
  exact ⟨spans.split.1, spans.split.2.getElem?, spans.split.2.next⟩

/-- Looking for a bracket goes as it goes on the tokens behind the open one, which counts for one more there. -/
theorem closeFrom_eq {opener : Nat} {o : Lexeme} (opens : toks[opener]? = some o) (depth : Nat)
    (spans : Spans toks lo hi tokens) : closeFrom toks opener tokens.length lo (depth + 1) =
      match Parser.findClose o depth tokens with
      | .ok e => .ok (lo + e.inside.length)
      | .error e => .error (.fault e) := by
  have opened : tokenAt toks opener = .ok o := by
    rw [tokenAt, opens]
    rfl
  induction tokens generalizing lo depth with
  | nil =>
    simp only [closeFrom, Parser.findClose, opened, List.length_nil]
    rw [lineAt, opens]
    rfl
  | cons l rest ih =>
    have step : ∀ depth, closeFrom toks opener rest.length (lo + 1) (depth + 1 : Nat) =
        match (Parser.findClose o depth rest).map (Enclosed.cons l) with
        | .ok e => .ok (lo + e.inside.length)
        | .error e => .error (.fault e) := by
      intro depth
      rw [Nat.cast_add, Nat.cast_one, ih _ spans.next]
      cases Parser.findClose o depth rest with
      | error e => rfl
      | ok e =>
        simp only [Except.map, Enclosed.cons, List.length_cons]
        congr 1
        omega
    rw [List.length_cons, closeFrom, Parser.findClose, spans.tokenAt]
    simp only [bind, Except.bind, opened]
    cases token : l.token with
    | opening b => exact_mod_cast step (depth + 1)
    | closing b =>
      cases depth with
      | zero =>
        simp only [Nat.cast_zero, zero_add, sub_self, if_true]
        split <;> rfl
      | succ depth =>
        have below : ((depth + 1 : Nat) : Int) + 1 - 1 = (depth + 1 : Nat) := by omega
        have inner : ((depth + 1 : Nat) : Int) ≠ 0 := by omega
        simp only [below, inner, if_false]
        exact step depth
    | _ => exact_mod_cast step depth

theorem findClose_eq {opener : Nat} {o : Lexeme} {b : Bracket} (opens : toks[opener]? = some o)
    (token : o.token = .opening b) (spans : Spans toks (opener + 1) hi tokens) : findClose toks opener hi =
      match Parser.findClose o 0 tokens with
      | .ok e => .ok (opener + 1 + e.inside.length)
      | .error e => .error (.fault e) := by
  have opened : tokenAt toks opener = .ok o := by
    rw [tokenAt, opens]
    rfl
  have size : min hi toks.length - opener = tokens.length + 1 := by
    have := spans.length
    have := spans.within
    omega
  rw [findClose, size, closeFrom, opened]
  simp only [bind, Except.bind, token]
  exact_mod_cast closeFrom_eq opens 0 spans

/-- Tokens in which no bracket closes that was not opened among them, or before them where so many were. -/
def Nested : Nat → List Lexeme → Prop
  | _, [] => True
  | depth, l :: rest => (∀ b, l.token = .closing b → 0 < depth) ∧ Nested (depthAfter depth l.token) rest

theorem nested_of_findClose {opener : Lexeme} {depth : Nat} {e : Enclosed}
    (found : Parser.findClose opener depth tokens = .ok e) : Nested depth e.inside := by
  induction tokens generalizing depth e with
  | nil => cases found
  | cons l rest ih =>
    have step : ∀ inner, (Parser.findClose opener inner rest).map (Enclosed.cons l) = .ok e →
        (∀ b, l.token = .closing b → 0 < depth) → depthAfter depth l.token = inner → Nested depth e.inside := by
      intro inner mapped open' same
      cases behind : Parser.findClose opener inner rest with
      | error err => simp [behind, Except.map] at mapped
      | ok e' =>
        simp only [behind, Except.map, Except.ok.injEq] at mapped
        subst mapped
        exact ⟨open', same ▸ ih behind⟩
    unfold Parser.findClose at found
    cases token : l.token with
    | opening b =>
      simp only [token] at found
      exact step _ found (by simp [token]) (by simp [token, depthAfter])
    | closing b =>
      simp only [token] at found
      cases depth with
      | zero =>
        simp only at found
        split at found
        · cases found
          trivial
        · cases found
      | succ depth => exact step _ found (by simp) (by simp [token, depthAfter])
    | _ =>
      simp only [token] at found
      exact step _ found (by simp [token]) (by simp [token, depthAfter])

/-- Clauses are what lies between the positions of the separators. -/
inductive Cuts (toks : List Lexeme) (hi endLine : Nat) : Nat → List Clause → List Nat → Prop
  | last {lo : Nat} {c : Clause} (spans : Spans toks lo hi c.tokens) (line : c.endLine = endLine) :
    Cuts toks hi endLine lo [c] []
  | cut {lo stop : Nat} {c : Clause} {clauses : List Clause} {stops : List Nat} (spans : Spans toks lo stop c.tokens)
    (line : c.endLine = lineAt toks stop) (below : stop < hi) (others : Cuts toks hi endLine (stop + 1) clauses stops) :
    Cuts toks hi endLine lo (c :: clauses) (stop :: stops)

theorem Spans.cons (found : toks[lo]? = some l) (spans : Spans toks (lo + 1) hi tokens) :
    Spans toks lo hi (l :: tokens) := by
  obtain ⟨before, behind, rfl, size, rfl⟩ := spans
  obtain ⟨front, last, rfl⟩ : ∃ front last, before = front ++ [last] := by
    exact ⟨_, _, (List.dropLast_concat_getLast (List.ne_nil_of_length_eq_add_one size)).symm⟩
  simp only [List.length_append, List.length_singleton, Nat.add_right_cancel_iff] at size
  subst size
  obtain rfl : last = l := by simpa using found
  exact ⟨front, behind, by simp, rfl, by simp only [List.length_cons]; omega⟩

theorem Cuts.cons {endLine : Nat} {clauses : List Clause} {stops : List Nat} (found : toks[lo]? = some l)
    (cuts : Cuts toks hi endLine (lo + 1) clauses stops) : Cuts toks hi endLine lo (consToFirst l clauses) stops := by
  cases cuts with
  | last spans line => exact .last (spans.cons found) line
  | cut spans line below others => exact .cut (spans.cons found) line below others

theorem openAfter_eq {depth : Nat} (closes : ∀ b, l.token = .closing b → 0 < depth) :
    openAfter depth l.token = (depthAfter depth l.token : Nat) := by
  cases token : l.token with
  | closing b =>
    have open' := closes b token
    simp only [openAfter, depthAfter]
    omega
  | _ => rfl

/-- Looking for separators finds them where the clauses are cut. -/
theorem separatorsFrom_cuts {separator : Token} (plain : ∀ depth, depthAfter depth separator = depth) (endLine : Nat)
    (depth : Nat) (spans : Spans toks lo hi tokens) (nested : Nested depth tokens) :
    ∃ stops, separatorsFrom toks separator tokens.length lo depth = .ok stops ∧
      Cuts toks hi endLine lo (splitClauses separator endLine depth tokens) stops := by
  induction tokens generalizing lo depth with
  | nil => exact ⟨[], rfl, .last spans rfl⟩
  | cons l rest ih =>
    obtain ⟨closes, nested⟩ := nested
    rw [List.length_cons, separatorsFrom, spans.tokenAt, splitClauses]
    simp only [bind, Except.bind, Nat.cast_eq_zero]
    split
    · next separates =>
      obtain ⟨rfl, -⟩ := separates
      rw [plain] at nested
      obtain ⟨stops, looked, cuts⟩ := ih _ spans.next nested
      rw [looked]
      exact ⟨lo :: stops, rfl, .cut spans.empty spans.lineAt.symm spans.nonempty cuts⟩
    · next passed =>
      obtain ⟨stops, looked, cuts⟩ := ih _ spans.next nested
      rw [openAfter_eq closes, looked]
      exact ⟨stops, rfl, cuts.cons spans.getElem?⟩

/-- What is enclosed is cut at the separators that are found in it. -/
theorem Spans.separated {opener : Lexeme} {e : Enclosed} (separator : Token)
    (plain : ∀ depth, depthAfter depth separator = depth) (spans : Spans toks lo hi tokens)
    (found : Parser.findClose opener 0 tokens = .ok e) :
    ∃ stops, separatorsFrom toks separator e.inside.length lo 0 = .ok stops ∧
      Cuts toks (lo + e.inside.length) e.closer.line lo (splitClauses separator e.closer.line 0 e.inside) stops :=
  separatorsFrom_cuts plain _ 0 (spans.enclosed found).1 (nested_of_findClose found)

end SmallC.Parser.Indexed
