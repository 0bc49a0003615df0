import SmallC.Proofs.Parsing.Definitions
import SmallC.Proofs.Parsing.Trees

/-!
Bodies without braces. Where a parser stops in front of a closing brace it would have stopped at the end of the source
too, so without the brace it parses the same and leaves nothing. The body of a conditional or of a loop can therefore be
a single statement of tokens that make one in a block: both bodies are the same tree.
-/
namespace SmallC.Parser

variable {α β γ : Type} {n k : Nat} {brace : Lexeme} {tokens : List Lexeme}

theorem run_inScope_inv {act : ParseM α} {σ σ' : Scopes} {x : α} (ran : (inScope act).run σ = .ok (x, σ')) :
    ∃ inner, act.run σ.enter = .ok (x, inner) ∧ inner.leave = σ' := by
  change ((act.run σ.enter).bind fun done => .ok (done.1, done.2.leave)) = _ at ran
  cases inside : act.run σ.enter with
  | error e =>
    rw [inside] at ran
    cases ran
  | ok done =>
    rw [inside] at ran
    cases ran
    exact ⟨done.2, rfl, rfl⟩

/-- Parsing leaves no tokens. -/
def Exhausts (act : ParseM (Parsed α n)) : Prop := ∀ σ p σ', act.run σ = .ok (p, σ') → p.rest = []

/-- Parsing makes a value and leaves tokens, and changes the declarations in scope. -/
def Makes (act : ParseM (Parsed α n)) (σ : Scopes) (x : α) (left : List Lexeme) (σ' : Scopes) : Prop :=
  ∃ fewer, act.run σ = .ok (⟨x, left, fewer⟩, σ')

/-- What is parsed in front of a brace is parsed so without it, unless nothing is left. -/
def Trims (brace : Lexeme) (act : ParseM (Parsed α n)) (act' : ParseM (Parsed α k)) : Prop :=
  ∀ σ p σ', act.run σ = .ok (p, σ') → p.rest = [] ∨ ∃ left, p.rest = left ++ [brace] ∧ Makes act' σ p.value left σ'

namespace Makes

variable {act : ParseM (Parsed α k)} {σ mid σ' : Scopes} {x : α} {left left' : List Lexeme}

theorem inScope (makes : Makes act σ.enter x left σ') : Makes (Parser.inScope act) σ x left σ'.leave := by
  obtain ⟨fewer, ran⟩ := makes
  refine ⟨fewer, ?_⟩
  change ((act.run σ.enter).bind fun done => .ok (done.1, done.2.leave)) = _
  rw [ran]
  rfl

theorem bind {f : Parsed α k → ParseM (Parsed β n)} {y : β} (first : Makes act σ x left mid)
    (rest : ∀ fewer, Makes (f ⟨x, left, fewer⟩) mid y left' σ') : Makes (act >>= f) σ y left' σ' := by
  obtain ⟨fewer, ran⟩ := first
  obtain ⟨fewer', ran'⟩ := rest fewer
  exact ⟨fewer', (run_bind_ok ran).trans ran'⟩

theorem pure {fewer : left.length < k} : Makes (Pure.pure ⟨x, left, fewer⟩ : ParseM (Parsed α k)) σ x left σ :=
  ⟨fewer, rfl⟩

end Makes

namespace Exhausts

variable {act : ParseM (Parsed α k)}

theorem of_short (short : k ≤ 1) : Exhausts act := fun _ p _ _ =>
  List.eq_nil_of_length_eq_zero (Nat.lt_one_iff.1 (Nat.lt_of_lt_of_le p.fewer short))

theorem pure {x : α} {fewer : [].length < n} : Exhausts (Pure.pure ⟨x, [], fewer⟩ : ParseM (Parsed α n)) := by
  intro σ p σ' ran
  cases ran
  rfl

theorem throw (error : CompileError) : Exhausts (MonadExcept.throw error : ParseM (Parsed α k)) := by
  intro σ p σ' ran
  cases ran

theorem bind {f : Parsed α k → ParseM (Parsed β n)} (first : Exhausts act)
    (rest : ∀ x fewer, Exhausts (f ⟨x, [], fewer⟩)) : Exhausts (act >>= f) := by
  intro σ p σ' ran
  obtain ⟨⟨x, left, fewer⟩, mid, ran, ran'⟩ := run_bind_inv ran
  obtain rfl : left = [] := first σ _ mid ran
  exact rest x fewer mid p σ' ran'

theorem step {act : ParseM γ} {f : γ → ParseM (Parsed β n)} (rest : ∀ x, Exhausts (f x)) : Exhausts (act >>= f) := by
  intro σ p σ' ran
  obtain ⟨x, mid, -, ran⟩ := run_bind_inv ran
  exact rest x mid p σ' ran

theorem ite {c : Prop} {_ : Decidable c} {other : ParseM (Parsed α k)} (yes : Exhausts act) (no : Exhausts other) :
    Exhausts (if c then act else other) := by
  split
  · exact yes
  · exact no

theorem stops (error : CompileError) {f : γ → ParseM (Parsed α k)} :
    Exhausts ((MonadExcept.throw error : ParseM γ) >>= f) := by
  intro σ p σ' ran
  cases ran

/-- What stops parsing on a condition. -/
theorem refuse {c : Prop} {_ : Decidable c} {error : CompileError} {f : Unit → ParseM (Parsed α k)}
    (rest : Exhausts (f ())) : Exhausts (if c then MonadExcept.throw error >>= f else f ()) :=
  .ite (.stops error) rest

theorem inScope (exhausts : Exhausts act) : Exhausts (Parser.inScope act) := by
  intro σ p σ' ran
  obtain ⟨inner, inside, -⟩ := run_inScope_inv ran
  exact exhausts σ.enter p inner inside

end Exhausts

namespace Trims

variable {act : ParseM (Parsed α n)} {act' : ParseM (Parsed α k)} {i j : Nat}

theorem exhausted (exhausts : Exhausts act) : Trims brace act act' := fun σ p σ' ran => .inl (exhausts σ p σ' ran)

theorem pure {x : α} (left : List Lexeme) {fewer : (left ++ [brace]).length < n} {fewer' : left.length < k} :
    Trims brace (Pure.pure ⟨x, left ++ [brace], fewer⟩) (Pure.pure ⟨x, left, fewer'⟩ : ParseM (Parsed α k)) := by
  intro σ p σ' ran
  cases ran
  exact .inr ⟨left, rfl, fewer', rfl⟩

theorem throw (error : CompileError) : Trims brace (MonadExcept.throw error : ParseM (Parsed α n)) act' := by
  intro σ p σ' ran
  cases ran

theorem bind {f : Parsed α n → ParseM (Parsed β i)} {f' : Parsed α k → ParseM (Parsed β j)}
    (first : Trims brace act act')
    (rest : ∀ x left fewer fewer', Trims brace (f ⟨x, left ++ [brace], fewer⟩) (f' ⟨x, left, fewer'⟩))
    (ended : ∀ x fewer, Exhausts (f ⟨x, [], fewer⟩)) : Trims brace (act >>= f) (act' >>= f') := by
  intro σ p σ' ran
  obtain ⟨⟨x, left, fewer⟩, mid, ran, ran'⟩ := run_bind_inv ran
  rcases first σ _ mid ran with none | ⟨left', cut, fewer', ran''⟩
  · cases none
    exact .inl (ended x fewer mid p σ' ran')
  · cases cut
    unfold Makes
    rw [run_bind_ok ran'']
    exact rest x left' fewer fewer' mid p σ' ran'

theorem step {act : ParseM γ} {f : γ → ParseM (Parsed α n)} {f' : γ → ParseM (Parsed α k)}
    (rest : ∀ x, Trims brace (f x) (f' x)) : Trims brace (act >>= f) (act >>= f') := by
  intro σ p σ' ran
  obtain ⟨x, mid, ran, ran'⟩ := run_bind_inv ran
  unfold Makes
  rw [run_bind_ok ran]
  exact rest x mid p σ' ran'

theorem ite {c : Prop} [Decidable c] {other : ParseM (Parsed α n)} {other' : ParseM (Parsed α k)}
    (yes : c → Trims brace act act') (no : ¬ c → Trims brace other other') :
    Trims brace (if c then act else other) (if c then act' else other') := by
  split
  · next holds => exact yes holds
  · next fails => exact no fails

/-- What stops parsing on a condition. -/
theorem refuse {c : Prop} {_ : Decidable c} {error error' : CompileError} {f : Unit → ParseM (Parsed α n)}
    {f' : Unit → ParseM (Parsed α k)} (rest : Trims brace (f ()) (f' ())) :
    Trims brace (if c then MonadExcept.throw error >>= f else f ())
      (if c then MonadExcept.throw error' >>= f' else f' ()) :=
  .ite (fun _ => .throw error) fun _ => rest

theorem inScope (trims : Trims brace act act') : Trims brace (Parser.inScope act) (Parser.inScope act') := by
  intro σ p σ' ran
  obtain ⟨inner, inside, rfl⟩ := run_inScope_inv ran
  exact (trims σ.enter p inner inside).imp_right fun ⟨left, cut, makes⟩ => ⟨left, cut, makes.inScope⟩

end Trims

/-! ### Cuts -/

section

variable {line depth : Nat} {ended : Ended}

theorem findSemicolon_trims (closes : brace.token = .closing .curly) (line' : Nat)
    (found : findSemicolon line depth (tokens ++ [brace]) = .ok ended) :
    ∃ after, ended.after = after ++ [brace] ∧ findSemicolon line' depth tokens = .ok { ended with after } := by
  induction tokens generalizing depth ended with
  | nil =>
    rw [List.nil_append] at found
    unfold findSemicolon at found
    rw [closes] at found
    cases depth with
    | zero => cases found
    | succ depth => cases found
  | cons l rest ih =>
    have step : ∀ depth, (findSemicolon line depth (rest ++ [brace])).map (Ended.cons l) = .ok ended →
        ∃ after, ended.after = after ++ [brace] ∧
          (findSemicolon line' depth rest).map (Ended.cons l) = .ok { ended with after } := by
      intro depth mapped
      cases inner : findSemicolon line depth (rest ++ [brace]) with
      | error e =>
        rw [inner] at mapped
        cases mapped
      | ok e =>
        rw [inner] at mapped
        cases mapped
        obtain ⟨after, cut, found'⟩ := ih inner
        exact ⟨after, cut, by rw [found']; rfl⟩
    rw [List.cons_append] at found
    unfold findSemicolon at found ⊢
    split at found
    · exact step _ found
    · cases found
    · exact step _ found
    · cases found
      exact ⟨rest, rfl, rfl⟩
    · exact step _ found

end

theorem findClose_trims {opener : Lexeme} {depth : Nat} {enclosed : Enclosed}
    (found : findClose opener depth (tokens ++ [brace]) = .ok enclosed) : enclosed.after = [] ∨
      ∃ after, enclosed.after = after ++ [brace] ∧ findClose opener depth tokens = .ok { enclosed with after } := by
  induction tokens generalizing depth enclosed with
  | nil =>
    have length := findClose_length found
    simp only [List.nil_append, List.length_singleton] at length
    exact .inl (List.eq_nil_of_length_eq_zero (by omega))
  | cons l rest ih =>
    have step : ∀ depth, (findClose opener depth (rest ++ [brace])).map (Enclosed.cons l) = .ok enclosed →
        enclosed.after = [] ∨ ∃ after, enclosed.after = after ++ [brace] ∧
          (findClose opener depth rest).map (Enclosed.cons l) = .ok { enclosed with after } := by
      intro depth mapped
      cases inner : findClose opener depth (rest ++ [brace]) with
      | error e =>
        rw [inner] at mapped
        cases mapped
      | ok e =>
        rw [inner] at mapped
        cases mapped
        rcases ih inner with none | ⟨after, cut, found'⟩
        · exact .inl none
        · exact .inr ⟨after, cut, by rw [found']; rfl⟩
    rw [List.cons_append, findClose] at found
    rw [findClose]
    split at found
    · exact step _ found
    · split at found
      · split at found
        · next kind =>
          cases found
          rw [if_pos kind]
          exact .inr ⟨rest, rfl, rfl⟩
        · cases found
      · exact step _ found
    · exact step _ found

/-- Whether tokens start with a token does not hang on a brace behind them. -/
theorem takeToken?_trims (closes : brace.token = .closing .curly) (token : Token) (other : token ≠ .closing .curly)
    (tokens : List Lexeme) : takeToken? token (tokens ++ [brace]) = none ∧ takeToken? token tokens = none ∨
      ∃ l rest fewer fewer', takeToken? token (tokens ++ [brace]) = some ⟨l, rest ++ [brace], fewer⟩ ∧
        takeToken? token tokens = some ⟨l, rest, fewer'⟩ := by
  cases tokens with
  | nil => exact .inl ⟨if_neg fun is => other (is.symm.trans closes), rfl⟩
  | cons l rest =>
    by_cases is : l.token = token
    · exact .inr ⟨l, rest, _, _, if_pos is, if_pos is⟩
    · exact .inl ⟨if_neg is, if_neg is⟩

theorem takeToken?_isSome_trims (closes : brace.token = .closing .curly) (token : Token)
    (other : token ≠ .closing .curly) (tokens : List Lexeme) :
    (takeToken? token (tokens ++ [brace])).isSome = (takeToken? token tokens).isSome := by
  rcases takeToken?_trims closes token other tokens with ⟨none, none'⟩ | ⟨l, rest, _, _, found, found'⟩
  · rw [none, none']
    rfl
  · rw [found, found']
    rfl

theorem expect_trims {endLine endLine' : Nat} (token : Token) :
    Trims brace (expect endLine token (tokens ++ [brace])) (expect endLine' token tokens) := by
  cases tokens with
  | nil => exact .exhausted (.of_short (Nat.le_refl 1))
  | cons l rest => exact .ite (fun _ => .pure rest) fun _ => .throw _

theorem expectIdentifier_trims {endLine endLine' : Nat} :
    Trims brace (expectIdentifier endLine (tokens ++ [brace])) (expectIdentifier endLine' tokens) := by
  cases tokens with
  | nil => exact .exhausted (.of_short (Nat.le_refl 1))
  | cons l rest =>
    simp only [List.cons_append, expectIdentifier]
    split
    · exact .pure rest
    · exact .throw _

/-! ### Definitions -/

section

variable {endLine endLine' line : Nat}

theorem parseStars_trims (closes : brace.token = .closing .curly) (refs : Nat) :
    parseStars refs (tokens ++ [brace]) = ((parseStars refs tokens).1, (parseStars refs tokens).2 ++ [brace]) := by
  induction tokens generalizing refs with
  | nil => exact if_neg (by simp [closes])
  | cons l rest ih =>
    rw [List.cons_append, parseStars, parseStars]
    split
    · exact ih _
    · rfl

theorem parseType_trims (closes : brace.token = .closing .curly) :
    Trims brace (parseType endLine (tokens ++ [brace])) (parseType endLine' tokens) := by
  cases tokens with
  | nil => exact .exhausted (.of_short (Nat.le_refl 1))
  | cons l rest =>
    simp only [List.cons_append, parseType]
    split
    · simp only [parseStars_trims closes]
      exact .pure _
    · exact .throw _

theorem lineOr_eq (nonempty : tokens.isEmpty = false) : lineOr endLine tokens = lineOr endLine' tokens := by
  cases tokens with
  | nil => cases nonempty
  | cons l rest => rfl

theorem parseEnded_of_found {ended : Ended} (found : findSemicolon (lineOr endLine tokens) 0 tokens = .ok ended) :
    ∃ fewer : ended.after.length < tokens.length, parseEnded endLine tokens =
      if ended.before.isEmpty then return ⟨none, ended.after, fewer⟩
      else do return ⟨some (← parseExpr (lineOr endLine ended.before) ended.before), ended.after, fewer⟩ := by
  unfold parseEnded
  split
  · next failed => cases failed.symm.trans found
  · next found' =>
    cases found'.symm.trans found
    exact ⟨by have := findSemicolon_length found; omega, rfl⟩

theorem parseEnded_trims (closes : brace.token = .closing .curly) :
    Trims brace (parseEnded endLine (tokens ++ [brace])) (parseEnded endLine' tokens) := by
  cases found : findSemicolon (lineOr endLine (tokens ++ [brace])) 0 (tokens ++ [brace]) with
  | error e =>
    unfold parseEnded
    split
    · exact .throw _
    · next found' => cases found'.symm.trans found
  | ok ended =>
    obtain ⟨after, cut, found'⟩ := findSemicolon_trims closes (lineOr endLine' tokens) found
    obtain ⟨before, semicolon, after'⟩ := ended
    subst cut
    obtain ⟨_, first⟩ := parseEnded_of_found found
    obtain ⟨_, second⟩ := parseEnded_of_found found'
    rw [first, second]
    refine .ite (fun _ => .pure after) fun nonempty => ?_
    rw [lineOr_eq (eq_false_of_ne_true nonempty)]
    exact .step fun e => .pure after

theorem parseFull_trims (closes : brace.token = .closing .curly) (tokens : List Lexeme) :
    Trims brace (parseFull endLine (tokens ++ [brace])) (parseFull endLine' tokens) := by
  refine (parseEnded_trims closes).bind (fun value left _ _ => ?_) fun value _ => ?_
  · cases value with
    | some e => exact .pure left
    | none => exact .throw _
  · cases value with
    | some e => exact .pure
    | none => exact .throw _

theorem parseCondition_trims :
    Trims brace (parseCondition endLine (tokens ++ [brace])) (parseCondition endLine' tokens) := by
  refine (expect_trims _).bind (fun opener left _ _ => ?_) fun opener _ => ?_
  · dsimp only
    split
    · exact .throw _
    · next enclosed found =>
      obtain ⟨inside, closer, after'⟩ := enclosed
      obtain none | ⟨after, cut, found'⟩ := findClose_trims found
      · subst none
        exact .exhausted (.step fun e => .pure)
      · subst cut
        split
        · next failed => cases failed.symm.trans found'
        · next found'' =>
          cases found''.symm.trans found'
          exact .step fun e => .pure after
  · exact .throw _

theorem parseVariableEnd_trims (closes : brace.token = .closing .curly) {name : String} :
    Trims brace (parseVariableEnd endLine name (tokens ++ [brace])) (parseVariableEnd endLine' name tokens) := by
  cases tokens with
  | nil => exact .exhausted (.of_short (Nat.le_refl 1))
  | cons l rest =>
    simp only [List.cons_append, parseVariableEnd]
    split
    · exact (parseFull_trims closes _).bind (fun _ left _ _ => .pure left) fun _ _ => .pure
    · exact .pure rest
    · exact .throw _

theorem parseVariable_trims (closes : brace.token = .closing .curly) {ty : TypeSpec} {name : String} :
    Trims brace (parseVariable endLine line ty name (tokens ++ [brace]))
      (parseVariable endLine' line ty name tokens) := by
  unfold parseVariable
  refine .refuse (.step fun _ => ?_)
  exact (parseVariableEnd_trims closes).bind (fun _ left _ _ => .step fun _ => .pure left) fun _ _ =>
    .step fun _ => .pure

theorem parseDimension_trims {name : String} : Trims brace (parseDimension endLine line name (tokens ++ [brace]))
    (parseDimension endLine' line name tokens) := by
  cases tokens with
  | nil => exact .exhausted (.of_short (Nat.le_refl 1))
  | cons l rest =>
    simp only [List.cons_append, parseDimension]
    split
    · exact .ite (fun _ => (expect_trims _).bind (fun _ left _ _ => .pure left) fun _ _ => .pure) fun _ => .throw _
    · exact .throw _

theorem parseDimensions_trims (closes : brace.token = .closing .curly) {name : String} {tokens : List Lexeme} :
    Trims brace (parseDimensions endLine line name (tokens ++ [brace]))
      (parseDimensions endLine' line name tokens) := by
  match tokens with
  | [] =>
    rw [List.nil_append, parseDimensions, parseDimensions, if_neg (by simp [closes])]
    exact .pure []
  | l :: rest =>
    rw [List.cons_append, parseDimensions, parseDimensions]
    refine .ite (fun _ => ?_) fun _ => .pure (l :: rest)
    refine parseDimension_trims.bind (fun dim left fewer fewer' => ?_) fun _ _ =>
      .bind (.of_short (Nat.le_refl 1)) fun _ _ => .pure
    have shorter : left.length < rest.length := fewer'
    exact (parseDimensions_trims closes).bind (fun _ left _ _ => .pure left) fun _ _ => .pure
termination_by tokens.length
decreasing_by
  simp only [List.length_cons]
  omega

theorem findElement_trims (brace : Lexeme) (nesting : Int) (tokens : List Lexeme) :
    (findElement nesting (tokens ++ [brace])).2 = [] ∨
    findElement nesting (tokens ++ [brace]) =
      ((findElement nesting tokens).1, (findElement nesting tokens).2 ++ [brace]) := by
  induction tokens generalizing nesting with
  | nil =>
    rw [List.nil_append, findElement.eq_2]
    split
    · exact .inr rfl
    · exact .inl rfl
  | cons l rest ih =>
    rw [List.cons_append, findElement, findElement]
    split
    · exact .inr rfl
    · rcases ih (nestingAfter nesting l.token) with none | same
      · exact .inl none
      · rw [same]
        exact .inr rfl

theorem parseSeparator_trims (nonempty : tokens ≠ []) :
    Trims brace (parseSeparator endLine (tokens ++ [brace])) (parseSeparator endLine' tokens) := by
  cases tokens with
  | nil => exact absurd rfl nonempty
  | cons l rest => exact .ite (fun _ => .pure rest) fun _ => .ite (fun _ => .pure (l :: rest)) fun _ => .throw _

/-- What is behind an element, where the brace can be the separator, which ends the elements. -/
theorem parseOthers_trims {left : List Lexeme} (join : List Expr → List Expr)
    {fewer : ∀ (p : Parsed Unit ((left ++ [brace]).length + 1)) (q : Parsed (List Expr) p.rest.length),
      q.rest.length < n}
    {fewer' : ∀ (p : Parsed Unit (left.length + 1)) (q : Parsed (List Expr) p.rest.length), q.rest.length < k}
    (others : ∀ tokens : List Lexeme, tokens.length ≤ left.length →
      Trims brace (parseElements endLine (tokens ++ [brace])) (parseElements endLine' tokens)) :
    Trims brace
      (parseSeparator endLine (left ++ [brace]) >>= fun p => parseElements endLine p.rest >>= fun q =>
        return ⟨join q.value, q.rest, fewer p q⟩)
      (parseSeparator endLine' left >>= fun p => parseElements endLine' p.rest >>= fun q =>
        return (⟨join q.value, q.rest, fewer' p q⟩ : Parsed (List Expr) k)) := by
  by_cases nothing : left = []
  · subst nothing
    exact .exhausted (.step fun p => .bind (.of_short (Nat.le_of_lt_succ p.fewer)) fun _ _ => .pure)
  · refine (parseSeparator_trims nothing).bind (fun _ behind _ separated => ?_) fun _ _ => ?_
    · exact (others behind (Nat.le_of_lt_succ separated)).bind (fun _ after _ _ => .pure after) fun _ _ => .pure
    · exact .bind (.of_short (Nat.zero_le 1)) fun _ _ => .pure

theorem parseElements_trims (closes : brace.token = .closing .curly) {tokens : List Lexeme} :
    Trims brace (parseElements endLine (tokens ++ [brace])) (parseElements endLine' tokens) := by
  match _cut : tokens with
  | [] => exact .exhausted (.of_short (Nat.le_refl 1))
  | l :: rest =>
    rw [List.cons_append, parseElements, parseElements]
    refine .ite (fun _ => .pure rest) fun _ => .ite (fun _ => ?_) fun _ => ?_
    · refine (parseElements_trims closes).bind (fun inner left fewer fewer' => ?_) fun inner _ => ?_
      · have shorter : left.length < rest.length := fewer'
        exact parseOthers_trims (inner ++ ·) fun _ _ => parseElements_trims closes
      · exact .step fun p => .bind (.of_short (Nat.le_succ_of_le (Nat.le_of_lt_succ p.fewer))) fun _ _ => .pure
    · have cut := findElement_trims brace 0 (l :: rest)
      have whole := congrArg List.length (findElement_eq 0 (l :: rest))
      split
      next element behind found =>
      rw [List.cons_append, found] at cut
      split
      · exact .throw _
      · next some =>
        split
        next element' behind' found' =>
        rw [found'] at cut whole
        dsimp only at cut whole
        rcases cut with none | same
        · cases none
          exact .exhausted (.step fun e => .step fun p =>
            .bind (.of_short (Nat.le_succ_of_le (Nat.le_of_lt_succ p.fewer))) fun _ _ => .pure)
        · cases same
          have fewer : behind'.length < rest.length + 1 := by
            have := List.length_pos_iff.2 fun nothing => some (List.isEmpty_iff.2 nothing)
            simp only [List.length_append, List.length_cons] at whole
            omega
          dsimp only
          rw [dif_neg some, lineOr_eq (eq_false_of_ne_true some)]
          exact .step fun e => parseOthers_trims (e :: ·) fun _ _ => parseElements_trims closes
termination_by tokens.length
decreasing_by
  all_goals
    simp only [List.length_cons] at *
    omega

theorem parseInitializer_trims (closes : brace.token = .closing .curly) :
    Trims brace (parseInitializer endLine (tokens ++ [brace])) (parseInitializer endLine' tokens) := by
  unfold parseInitializer
  rcases takeToken?_trims closes (.assign none) nofun tokens with
    ⟨none, none'⟩ | ⟨l, behind, fewer, fewer', found, found'⟩
  · rw [none, none']
    exact .pure tokens
  · rw [found, found']
    refine (expect_trims _).bind (fun _ inside _ _ => ?_) fun _ _ => .bind (.of_short (Nat.zero_le 1)) fun _ _ => .pure
    exact (parseElements_trims closes).bind (fun _ left _ _ => .pure left) fun _ _ => .pure

theorem parseArray_trims (closes : brace.token = .closing .curly) {ty : TypeSpec} {name : String} :
    Trims brace (parseArray endLine line ty name (tokens ++ [brace])) (parseArray endLine' line ty name tokens) := by
  have declared : ∀ {dims init tokens fewer}, Exhausts (do
      declare line name (.array ty dims)
      return (⟨.array line name ty dims init, [], fewer⟩ : Parsed Stmt tokens)) := .step fun _ => .pure
  refine .step fun _ => (parseDimensions_trims closes).bind (fun dims behind _ _ => ?_) fun dims _ => ?_
  · refine (parseInitializer_trims closes).bind (fun init left _ _ => ?_) fun init _ => ?_
    · refine .refuse ((expect_trims _).bind (fun _ rest _ _ => ?_) fun _ _ => declared)
      exact .step fun _ => .pure rest
    · exact .refuse (.bind (.of_short (Nat.zero_le 1)) fun _ _ => declared)
  · refine .bind (.of_short (Nat.le_refl 1)) fun init _ => .refuse ?_
    exact .bind (.of_short (Nat.zero_le 1)) fun _ _ => declared

theorem parseParameterEnd_trims :
    Trims brace (parseParameterEnd line (tokens ++ [brace])) (parseParameterEnd line tokens) := by
  cases tokens with
  | nil => exact .exhausted (.of_short (Nat.le_refl 1))
  | cons l rest => exact .ite (fun _ => .pure rest) fun _ => .ite (fun _ => .pure rest) fun _ => .throw _

theorem parseMoreParameters_trims (closes : brace.token = .closing .curly) {earlier : List Param}
    {tokens : List Lexeme} : Trims brace (parseMoreParameters endLine earlier (tokens ++ [brace]))
      (parseMoreParameters endLine' earlier tokens) := by
  rw [parseMoreParameters, parseMoreParameters]
  have short {earlier : List Param} : Exhausts (parseMoreParameters endLine earlier []) := .of_short (Nat.zero_le 1)
  refine (parseType_trims closes).bind (fun ty behindType _ typed => ?_) fun ty _ => ?_
  · refine expectIdentifier_trims.bind (fun found behindName _ named => ?_) fun found _ => ?_
    · refine .refuse (parseParameterEnd_trims.bind (fun more rest _ ended => ?_) fun more _ => ?_)
      · refine .ite (fun _ => ?_) fun _ => .pure rest
        have shorter : rest.length < tokens.length := Nat.lt_trans ended (Nat.lt_trans named typed)
        exact (parseMoreParameters_trims closes).bind (fun _ left _ _ => .pure left) fun _ _ => .pure
      · exact .ite (short.bind fun _ _ => .pure) .pure
    · exact .refuse (.bind (.of_short (Nat.zero_le 1)) fun more _ => .ite (short.bind fun _ _ => .pure) .pure)
  · refine .bind (.of_short (Nat.zero_le 1)) fun found _ => .refuse (.bind (.of_short (Nat.zero_le 1)) fun more _ => ?_)
    exact .ite (short.bind fun _ _ => .pure) .pure
termination_by tokens.length

/-- Whether a parameter list is empty does not hang on a brace behind it. -/
theorem noParameters?_trims (closes : brace.token = .closing .curly) (tokens : List Lexeme) :
    noParameters? (tokens ++ [brace]) = none ∧ noParameters? tokens = none ∨
      ∃ l rest fewer fewer', noParameters? (tokens ++ [brace]) = some ⟨l, rest ++ [brace], fewer⟩ ∧
        noParameters? tokens = some ⟨l, rest, fewer'⟩ := by
  have round (tokens : List Lexeme) :=
    takeToken?_trims closes (.closing .round) nofun tokens
  unfold noParameters?
  rcases round tokens with ⟨none, none'⟩ | ⟨l, rest, fewer, fewer', found, found'⟩
  · rw [none, none']
    rcases takeToken?_trims closes (.type .void) nofun tokens with
      ⟨none, none'⟩ | ⟨l, behind, fewer, fewer', found, found'⟩
    · rw [none, none']
      exact .inl ⟨rfl, rfl⟩
    · rw [found, found']
      dsimp only
      rcases round behind with ⟨none, none'⟩ | ⟨r, rest, closed, closed', found, found'⟩
      · rw [none, none']
        exact .inl ⟨rfl, rfl⟩
      · rw [found, found']
        exact .inr ⟨r, rest, _, _, rfl, rfl⟩
  · rw [found, found']
    exact .inr ⟨l, rest, _, _, rfl, rfl⟩

theorem parseParameters_trims (closes : brace.token = .closing .curly) :
    Trims brace (parseParameters endLine (tokens ++ [brace])) (parseParameters endLine' tokens) := by
  refine (expect_trims _).bind (fun _ inside _ _ => ?_) fun _ _ => ?_
  · dsimp only
    rcases noParameters?_trims closes inside with
      ⟨none, none'⟩ | ⟨l, rest, fewer, fewer', found, found'⟩
    · rw [none, none']
      exact (parseMoreParameters_trims closes).bind (fun _ left _ _ => .pure left) fun _ _ => .pure
    · rw [found, found']
      exact .pure rest
  · exact .bind (.of_short (Nat.zero_le 1)) fun _ _ => .pure

theorem parseStrings_trims :
    Trims brace (parseStrings line (tokens ++ [brace])) (parseStrings line tokens) := by
  induction tokens with
  | nil => exact .exhausted (.of_short (Nat.le_refl 1))
  | cons l rest ih =>
    rw [List.cons_append, parseStrings, parseStrings]
    split
    · exact ih.bind (fun _ left _ _ => .pure left) fun _ _ => .pure
    · exact .pure rest
    · exact .throw _

theorem parseAsm_trims (closes : brace.token = .closing .curly) :
    Trims brace (parseAsm endLine line (tokens ++ [brace])) (parseAsm endLine' line tokens) := by
  refine (expect_trims _).bind (fun _ inside _ _ => ?_) fun _ _ => ?_
  · refine (parseStrings_trims).bind (fun text behind _ _ => ?_) fun text _ => .pure
    dsimp only
    rcases takeToken?_trims closes .semicolon nofun behind with
      ⟨none, none'⟩ | ⟨l, rest, fewer, fewer', found, found'⟩
    · rw [none, none']
      exact .pure behind
    · rw [found, found']
      exact .pure rest
  · exact .bind (.of_short (Nat.zero_le 1)) fun _ _ => .pure

end

/-! ### Statements -/

/-- What stands behind a branch does not hang on a brace behind it. -/
theorem alternative_trims (closes : brace.token = .closing .curly) (tokens : List Lexeme) :
    Alternative.of (tokens ++ [brace]) = .missing ∧ Alternative.of tokens = .missing ∨
      (∃ rest fewer fewer', Alternative.of (tokens ++ [brace]) = .branch (rest ++ [brace]) fewer ∧
        Alternative.of tokens = .branch rest fewer') ∨
      ∃ rest fewer fewer', Alternative.of (tokens ++ [brace]) = .last (rest ++ [brace]) fewer ∧
        Alternative.of tokens = .last rest fewer' := by
  have word (word : Keyword) (tokens : List Lexeme) :=
    takeToken?_trims closes (.keyword word) nofun tokens
  unfold Alternative.of
  rcases word .elseWord tokens with ⟨none, none'⟩ | ⟨l, behind, fewer, fewer', found, found'⟩
  · rw [none, none']
    exact .inl ⟨rfl, rfl⟩
  · rw [found, found']
    dsimp only
    rcases word .ifWord behind with ⟨none, none'⟩ | ⟨l, rest, shorter, shorter', found, found'⟩
    · rw [none, none']
      exact .inr (.inr ⟨behind, _, _, rfl, rfl⟩)
    · rw [found, found']
      exact .inr (.inl ⟨rest, _, _, rfl, rfl⟩)

mutual

theorem parseStatement_trims (closes : brace.token = .closing .curly) {around around' : Surroundings}
    (same : around.inFunction = around'.inFunction) {l : Lexeme} {rest : List Lexeme} :
    Trims brace (parseStatement around l (rest ++ [brace])) (parseStatement around' l rest) := by
  rw [parseStatement, parseStatement]
  split
  · exact .pure rest
  · exact (Trims.inScope (parseBlock_trims closes same)).bind (fun _ left _ _ => .pure left) fun _ _ => .pure
  · refine (parseBranch_trims closes same).bind (fun branch behind _ _ => ?_) fun branch _ => ?_
    · exact (parseElse_trims closes same).bind (fun _ left _ _ => .pure left) fun _ _ => .pure
    · exact .bind (.of_short (Nat.le_refl 1)) fun _ _ => .pure
  · exact (parseBranch_trims closes same).bind (fun ⟨_, _⟩ left _ _ => .pure left) fun ⟨_, _⟩ _ => .pure
  · exact (parseFor_trims closes same).bind (fun _ left _ _ => .pure left) fun _ _ => .pure
  · rw [same]
    exact .refuse ((parseEnded_trims closes).bind (fun _ left _ _ => .pure left) fun _ _ => .pure)
  · exact (expect_trims _).bind (fun _ left _ _ => .pure left) fun _ _ => .pure
  · exact (expect_trims _).bind (fun _ left _ _ => .pure left) fun _ _ => .pure
  · exact (parseAsm_trims closes).bind (fun _ left _ _ => .pure left) fun _ _ => .pure
  · exact (parseDefinition_trims closes same rest).bind (fun _ left _ _ => .refuse (.pure left)) fun _ _ =>
      .refuse .pure
  · have whole : Trims brace (parseDefinition around false (l :: (rest ++ [brace])))
        (parseDefinition around' false (l :: rest)) := parseDefinition_trims closes same (l :: rest)
    exact whole.bind (fun _ left _ _ => .pure left) fun _ _ => .pure
  · have whole : Trims brace (parseFull around.endLine (l :: (rest ++ [brace])))
        (parseFull around'.endLine (l :: rest)) := parseFull_trims closes (l :: rest)
    exact whole.bind (fun _ left _ _ => .pure left) fun _ _ => .pure
termination_by 4 * (rest.length + 1) + 1

theorem parseBlock_trims (closes : brace.token = .closing .curly) {around around' : Surroundings}
    (same : around.inFunction = around'.inFunction) {tokens : List Lexeme} :
    Trims brace (parseBlock around (tokens ++ [brace])) (parseBlock around' tokens) := by
  match _cut : tokens with
  | [] => exact .exhausted (.of_short (Nat.le_refl 1))
  | l :: rest =>
    rw [List.cons_append, parseBlock, parseBlock]
    refine .ite (fun _ => .pure rest) fun _ => ?_
    refine (parseStatement_trims closes same).bind (fun stmt behind _ fewer => ?_) fun _ _ => ?_
    · have shorter : behind.length < rest.length + 1 := fewer
      exact (parseBlock_trims closes same).bind (fun _ left _ _ => .pure left) fun _ _ => .pure
    · exact .bind (.of_short (Nat.zero_le 1)) fun _ _ => .pure
termination_by 4 * tokens.length + 2

theorem parseBody_trims (closes : brace.token = .closing .curly) {around around' : Surroundings}
    (same : around.inFunction = around'.inFunction) {tokens : List Lexeme} :
    Trims brace (parseBody around (tokens ++ [brace])) (parseBody around' tokens) := by
  match _cut : tokens with
  | [] =>
    rw [List.nil_append, parseBody.eq_2]
    refine .exhausted (.ite ?_ ?_)
    · exact .bind (.inScope (.of_short (Nat.zero_le 1))) fun _ _ => .pure
    · exact .bind (.inScope (.of_short (Nat.le_refl 1))) fun _ _ => .pure
  | l :: rest =>
    rw [List.cons_append, parseBody, parseBody]
    refine .ite (fun _ => ?_) fun _ => ?_
    · exact (Trims.inScope (parseBlock_trims closes same)).bind (fun _ left _ _ => .pure left) fun _ _ => .pure
    · exact (Trims.inScope (parseStatement_trims closes same)).bind (fun _ left _ _ => .pure left) fun _ _ => .pure
termination_by 4 * tokens.length + 3

theorem parseBranch_trims (closes : brace.token = .closing .curly) {around around' : Surroundings}
    (same : around.inFunction = around'.inFunction) {tokens : List Lexeme} :
    Trims brace (parseBranch around (tokens ++ [brace])) (parseBranch around' tokens) := by
  rw [parseBranch, parseBranch]
  refine parseCondition_trims.bind (fun cond behind _ fewer => ?_) fun cond _ => ?_
  · have shorter : behind.length < tokens.length := fewer
    exact (parseBody_trims closes same).bind (fun _ left _ _ => .pure left) fun _ _ => .pure
  · exact .bind (.of_short (Nat.le_refl 1)) fun _ _ => .pure
termination_by 4 * tokens.length + 3

theorem parseElse_trims (closes : brace.token = .closing .curly) {around around' : Surroundings}
    (same : around.inFunction = around'.inFunction) {tokens : List Lexeme} :
    Trims brace (parseElse around (tokens ++ [brace])) (parseElse around' tokens) := by
  rw [parseElse, parseElse]
  rcases alternative_trims closes tokens with
    ⟨none, none'⟩ | ⟨behind, _, fewer, found, found'⟩ | ⟨behind, _, fewer, found, found'⟩
  · rw [none, none']
    exact .pure tokens
  · rw [found, found']
    refine (parseBranch_trims closes same).bind (fun branch left _ shorter => ?_) fun branch _ => ?_
    · have shorter' : left.length < behind.length := shorter
      exact (parseElse_trims closes same).bind (fun _ left _ _ => .pure left) fun _ _ => .pure
    · exact .bind (.of_short (Nat.le_refl 1)) fun _ _ => .pure
  · rw [found, found']
    exact (parseBody_trims closes same).bind (fun _ left _ _ => .pure left) fun _ _ => .pure
termination_by 4 * tokens.length + 3

theorem parseFor_trims (closes : brace.token = .closing .curly) {around around' : Surroundings}
    (same : around.inFunction = around'.inFunction) {line : Nat} {tokens : List Lexeme} :
    Trims brace (parseFor around line (tokens ++ [brace])) (parseFor around' line tokens) := by
  rw [parseFor, parseFor]
  refine (expect_trims _).bind (fun opener header _ opened => ?_) fun _ _ => ?_
  · have shorter : header.length < tokens.length := opened
    intro σ p σ' ran
    dsimp only at ran ⊢
    split at ran
    · cases ran
    · next enclosed found =>
      obtain ⟨inside, closer, after'⟩ := enclosed
      rcases findClose_trims found with none | ⟨after, cut, found'⟩
      · cases none
        refine .inl ((?_ : Exhausts _) σ p σ' ran)
        dsimp only
        split
        · refine .inScope (.ite (.step fun p => .refuse (.step fun init => ?_)) (.step fun _ => .step fun init => ?_))
          · exact .step fun _ => .step fun _ => .bind (.of_short (Nat.le_refl 1)) fun _ _ => .pure
          · exact .step fun _ => .step fun _ => .bind (.of_short (Nat.le_refl 1)) fun _ _ => .pure
        · exact .throw _
      · dsimp only at cut found'
        subst cut
        split
        · next failed => cases failed.symm.trans found'
        · next found'' =>
          cases found''.symm.trans found'
          refine (?_ : Trims brace _ _) σ p σ' ran
          dsimp only
          split
          · next init cond step clauses =>
            have parts := clausesSize_splitClauses .semicolon closer.line 0 inside
            have size := findClose_length found'
            rw [clauses] at parts
            simp only [clausesSize] at parts size
            have behind : after.length < tokens.length := by omega
            refine .inScope (.ite (fun _ => ?_) fun _ => .step fun _ => .step fun _ => .step fun _ => .step fun _ => ?_)
            · refine (parseDefinition_trims closes same header).bind (fun _ left _ _ => ?_) fun _ _ => ?_
              · dsimp only
                by_cases ends : left.length + init.tokens.length + 1 = header.length
                · rw [if_neg (by simp only [List.length_append]; omega), if_neg (by omega)]
                  refine .step fun _ => .step fun _ => .step fun _ => ?_
                  exact (parseBody_trims closes same).bind (fun _ left _ _ => .pure left) fun _ _ => .pure
                · rw [if_pos (by simp only [List.length_append]; omega)]
                  exact .exhausted (.stops _)
              · rw [if_pos (by simp only [List.length_nil, List.length_append]; omega)]
                exact .stops _
            · exact (parseBody_trims closes same).bind (fun _ left _ _ => .pure left) fun _ _ => .pure
          · exact .throw _
  · dsimp only
    split
    · exact .throw _
    · next found => cases found
termination_by 4 * tokens.length + 3

theorem parseDefinition_trims (closes : brace.token = .closing .curly) {around around' : Surroundings} {isInline : Bool}
    (same : around.inFunction = around'.inFunction) (tokens : List Lexeme) :
    Trims brace (parseDefinition around isInline (tokens ++ [brace])) (parseDefinition around' isInline tokens) := by
  by_cases nothing : tokens = []
  · subst nothing
    exact .exhausted (.of_short (Nat.le_refl 1))
  · have line : lineOr around.endLine (tokens ++ [brace]) = lineOr around'.endLine tokens := by
      obtain ⟨l, rest, rfl⟩ := List.exists_cons_of_ne_nil nothing
      rfl
    rw [parseDefinition, parseDefinition, line]
    refine (parseType_trims closes).bind (fun ty behindType _ typed => ?_) fun _ _ => ?_
    · refine expectIdentifier_trims.bind (fun found behindName _ named => ?_) fun _ _ => ?_
      · have shorter : behindName.length < tokens.length := Nat.lt_trans named typed
        dsimp only
        rw [takeToken?_isSome_trims closes (.opening .round) nofun behindName,
          takeToken?_isSome_trims closes (.opening .square) nofun behindName]
        refine .ite (fun _ => ?_) fun _ => .ite (fun _ => .throw _) fun _ => .ite (fun _ => ?_) fun _ => ?_
        · exact (parseFunction_trims closes same).bind (fun _ left _ _ => .pure left) fun _ _ => .pure
        · exact (parseArray_trims closes).bind (fun _ left _ _ => .pure left) fun _ _ => .pure
        · exact (parseVariable_trims closes).bind (fun _ left _ _ => .pure left) fun _ _ => .pure
      · exact .ite (.bind (.of_short (Nat.zero_le 1)) fun _ _ => .pure) (.ite (.throw _) (.ite
          (.bind (.of_short (Nat.zero_le 1)) fun _ _ => .pure) (.bind (.of_short (Nat.zero_le 1)) fun _ _ => .pure)))
    · exact .stops _
termination_by 4 * tokens.length

theorem parseFunction_trims (closes : brace.token = .closing .curly) {around around' : Surroundings} {line : Nat}
    {ret : TypeSpec} {name : String} {isInline : Bool} (same : around.inFunction = around'.inFunction)
    {tokens : List Lexeme} :
    Trims brace (parseFunction around line ret name isInline (tokens ++ [brace]))
      (parseFunction around' line ret name isInline tokens) := by
  rw [parseFunction, parseFunction]
  refine (parseParameters_trims closes).bind (fun params behind _ fewer => ?_) fun _ _ => ?_
  · refine .refuse (.step fun _ => ?_)
    rcases takeToken?_trims closes .semicolon nofun behind with
      ⟨none, none'⟩ | ⟨l, rest, fewer, fewer', found, found'⟩
    · rw [none, none']
      dsimp only
      rw [same]
      refine .step fun σ => .refuse (.step fun _ => .inScope (.step fun _ => ?_))
      refine (expect_trims _).bind (fun _ inside _ opened => ?_) fun _ _ => ?_
      · have shorter : inside.length < tokens.length := Nat.lt_trans opened fewer
        have block : Trims brace (parseBlock { around with inFunction := true } (inside ++ [brace]))
            (parseBlock { around' with inFunction := true } inside) := parseBlock_trims closes (by rfl)
        exact block.bind (fun _ left _ _ => .pure left) fun _ _ => .pure
      · exact .bind (.of_short (Nat.zero_le 1)) fun _ _ => .pure
    · rw [found, found']
      exact .step fun _ => .pure rest
  · refine .refuse (.step fun _ => .step fun σ => .refuse (.step fun _ => .inScope (.step fun _ => .stops _)))
termination_by 4 * tokens.length

end

/-! ### Bodies without braces -/

/-- What stands behind a closing bracket is not looked at. -/
theorem findClose_any_after {opener closer : Lexeme} {depth : Nat} {inside after after' : List Lexeme}
    (found : findClose opener depth (inside ++ closer :: after) = .ok ⟨inside, closer, after⟩) :
    findClose opener depth (inside ++ closer :: after') = .ok ⟨inside, closer, after'⟩ := by
  induction inside generalizing depth with
  | nil =>
    have step : ∀ depth, (findClose opener depth after).map (Enclosed.cons closer) ≠ .ok ⟨[], closer, after⟩ := by
      intro depth mapped
      cases inner : findClose opener depth after with
      | error e =>
        rw [inner] at mapped
        cases mapped
      | ok e =>
        rw [inner] at mapped
        cases mapped
    revert found
    rw [List.nil_append, List.nil_append, findClose, findClose]
    split
    · exact fun found => absurd found (step _)
    · split
      · split
        · exact fun _ => rfl
        · exact fun found => by cases found
      · exact fun found => absurd found (step _)
    · exact fun found => absurd found (step _)
  | cons l inside ih =>
    have step : ∀ depth,
        (findClose opener depth (inside ++ closer :: after)).map (Enclosed.cons l) = .ok ⟨l :: inside, closer, after⟩ →
        (findClose opener depth (inside ++ closer :: after')).map (Enclosed.cons l) =
          .ok ⟨l :: inside, closer, after'⟩ := by
      intro depth mapped
      cases inner : findClose opener depth (inside ++ closer :: after) with
      | error e =>
        rw [inner] at mapped
        cases mapped
      | ok e =>
        rw [inner] at mapped
        cases mapped
        rw [ih inner]
        rfl
    revert found
    rw [List.cons_append, List.cons_append, findClose, findClose]
    split
    · exact step _
    · split
      · split
        · exact fun found => by cases found
        · exact fun found => by cases found
      · exact step _
    · exact step _

section

variable {around around' : Surroundings} {opener l : Lexeme} {header rest left left' : List Lexeme} {σ mid σ' : Scopes}
  {stmt : Option Stmt} {e : Expr}

theorem expect_inv {endLine : Nat} {token : Token} {p : Parsed Lexeme tokens.length}
    (ran : (expect endLine token tokens).run σ = .ok (p, σ')) :
    tokens = p.value :: p.rest ∧ p.value.token = token ∧ σ = σ' := by
  cases tokens with
  | nil => cases ran
  | cons l rest =>
    by_cases is : l.token = token
    · simp only [expect, if_pos is] at ran
      cases ran
      exact ⟨rfl, is, rfl⟩
    · simp only [expect, if_neg is] at ran
      cases ran

theorem parseCondition_inv {endLine : Nat} (makes : Makes (parseCondition endLine tokens) σ e left σ') :
    ∃ o inside closer, tokens = o :: (inside ++ closer :: left) ∧ o.token = .opening .round ∧
      findClose o 0 (inside ++ closer :: left) = .ok ⟨inside, closer, left⟩ ∧
      (parseExpr (lineOr closer.line inside) inside).run σ = .ok (e, σ') := by
  obtain ⟨fewer, ran⟩ := makes
  obtain ⟨⟨o, behind, opened⟩, mid, expected, ran⟩ := run_bind_inv ran
  obtain ⟨whole, opens, rfl⟩ := expect_inv expected
  dsimp only at ran whole opens
  subst whole
  split at ran
  · cases ran
  · next enclosed found =>
    obtain ⟨e', mid', parsed, ran⟩ := run_bind_inv ran
    cases ran
    have whole := findClose_eq found
    exact ⟨o, enclosed.inside, enclosed.closer, congrArg _ whole, opens, whole ▸ found, parsed⟩

/-- What stands behind a condition is not looked at. -/
theorem parseCondition_after {endLine endLine' : Nat}
    (makes : Makes (parseCondition endLine (header ++ left)) σ e left σ') :
    Makes (parseCondition endLine' (header ++ left')) σ e left' σ' := by
  obtain ⟨o, inside, closer, whole, opens, found, parsed⟩ := parseCondition_inv makes
  have cut : header = o :: (inside ++ [closer]) := List.append_cancel_right (whole.trans (by simp))
  have whole' : header ++ left' = o :: (inside ++ closer :: left') := by simp [cut]
  have found' : findClose o 0 (inside ++ closer :: left') = .ok ⟨inside, closer, left'⟩ := findClose_any_after found
  have opened : Makes (expect endLine' (.opening .round) (o :: (inside ++ closer :: left'))) σ o
      (inside ++ closer :: left') σ := by
    rw [expect, if_pos opens]
    exact .pure
  rw [whole']
  refine opened.bind fun _ => ?_
  dsimp only
  split
  · next failed => cases failed.symm.trans found'
  · next found'' =>
    cases found''.symm.trans found'
    exact ⟨_, run_bind_ok parsed⟩

/-- No statement starts with a closing brace. -/
theorem starts_of_parseStatement (makes : Makes (parseStatement around l rest) σ stmt left σ') :
    l.token ≠ .closing .curly := by
  intro closing
  obtain ⟨_, ran⟩ := makes
  rw [parseStatement] at ran
  simp only [closing] at ran
  obtain ⟨_, _, ran, -⟩ := run_bind_inv ran
  obtain ⟨_, _, ran, -⟩ := run_bind_inv ran
  unfold parseEnded at ran
  split at ran
  · cases ran
  · next found =>
    unfold findSemicolon at found
    rw [closing] at found
    cases found

theorem parseElse_nil : Makes (parseElse around []) σ ([], none) [] σ := by
  rw [parseElse]
  exact .pure

variable (same : around.inFunction = around'.inFunction) (opens : opener.token = .opening .curly)
  (closes : brace.token = .closing .curly) (single : l.token ≠ .opening .curly)

include same opens closes single

/-- A single statement makes the body that the block makes which holds just this statement. -/
theorem parseBody_unbraced (alone : Makes (parseStatement around l (rest ++ [brace])) σ.enter stmt [brace] σ') :
    Makes (parseBody around (opener :: l :: (rest ++ [brace]))) σ stmt.toList [] σ'.leave ∧
      Makes (parseBody around' (l :: rest)) σ stmt.toList [] σ'.leave := by
  constructor
  · rw [parseBody, if_pos opens]
    refine Makes.bind (.inScope ?_) fun _ => .pure
    rw [parseBlock, if_neg (starts_of_parseStatement alone)]
    have ended : Makes (parseBlock around [brace]) σ' [] [] σ' := by
      rw [parseBlock, if_pos closes]
      exact .pure
    refine alone.bind fun _ => ended.bind fun _ => ?_
    simp only [List.append_nil]
    exact .pure
  · obtain ⟨fewer, ran⟩ := alone
    rw [parseBody, if_neg single]
    rcases parseStatement_trims closes same _ _ _ ran with none | ⟨left, cut, makes⟩
    · cases none
    · obtain rfl : left = [] := by simpa using cut
      exact makes.inScope.bind fun _ => .pure

/-- Braces around the only statement of a body make no difference to a conditional nor to a loop with a condition. -/
theorem parseStatement_unbraced {k : Lexeme}
    (governs : k.token = .keyword .ifWord ∨ k.token = .keyword .whileWord)
    (cond : Makes (parseCondition around.endLine (header ++ opener :: l :: (rest ++ [brace]))) σ e
      (opener :: l :: (rest ++ [brace])) mid)
    (alone : Makes (parseStatement around l (rest ++ [brace])) mid.enter stmt [brace] σ') :
    ∃ s, Makes (parseStatement around k (header ++ opener :: l :: (rest ++ [brace]))) σ (some s) [] σ'.leave ∧
      Makes (parseStatement around' k (header ++ l :: rest)) σ (some s) [] σ'.leave := by
  have body := parseBody_unbraced same opens closes single alone
  have braced : Makes (parseBranch around (header ++ opener :: l :: (rest ++ [brace]))) σ (.mk e stmt.toList) []
      σ'.leave := by
    rw [parseBranch]
    exact cond.bind fun _ => body.1.bind fun _ => .pure
  have unbraced : Makes (parseBranch around' (header ++ l :: rest)) σ (.mk e stmt.toList) [] σ'.leave := by
    rw [parseBranch]
    exact (parseCondition_after cond).bind fun _ => body.2.bind fun _ => .pure
  rcases governs with is | is
  · refine ⟨.conditional k.line [.mk e stmt.toList] none, ?_, ?_⟩
    all_goals
      rw [parseStatement]
      simp only [is]
    · exact braced.bind fun _ => parseElse_nil.bind fun _ => .pure
    · exact unbraced.bind fun _ => parseElse_nil.bind fun _ => .pure
  · refine ⟨.whileLoop k.line e stmt.toList, ?_, ?_⟩
    all_goals
      rw [parseStatement]
      simp only [is]
    · exact braced.bind fun _ => .pure
    · exact unbraced.bind fun _ => .pure

end

end SmallC.Parser
