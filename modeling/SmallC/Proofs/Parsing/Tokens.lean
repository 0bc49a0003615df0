import SmallC.Parser.Statement
import SmallC.Proofs.Generation.Names

/-!
Tokens. Every identifier that the lexer finds is a name that a source can give to a variable, and that no
generated label has, and cutting a token list adds none.
-/
namespace SmallC

/-- Whether a token, if it is an identifier, is a name that a source can give. -/
def Token.Plain : Token → Prop
  | .ident name => SourceName name ∧ Unlabelled name
  | _ => True

/-- Whether all identifiers among tokens are names that a source can give. -/
def Plain (tokens : List Lexeme) : Prop := ∀ l ∈ tokens, l.token.Plain

variable {tokens : List Lexeme}

theorem Plain.of_subset {part : List Lexeme} (plain : Plain tokens) (within : part ⊆ tokens) :
    Plain part := fun l member => plain l (within member)

theorem Plain.head {l : Lexeme} (plain : Plain (l :: tokens)) : l.token.Plain := plain l List.mem_cons_self

theorem Plain.tail {l : Lexeme} (plain : Plain (l :: tokens)) : Plain tokens :=
  plain.of_subset (List.subset_cons_self _ _)

theorem Token.Plain.source {t : Token} {name : String} (plain : t.Plain) (is : t = .ident name) :
    SourceName name ∧ Unlabelled name := by
  rwa [is] at plain

/-! ### The lexer -/

namespace Lexer

/-- A word that is none of the language starts with a letter or an underscore. -/
theorem plain_wordToken {c : Char} (starts : startsWord c = true) (behind : List Char) :
    (wordToken (String.ofList (c :: behind))).Plain := by
  unfold wordToken
  split
  · trivial
  · next noKeyword =>
    split
    · trivial
    · refine ⟨⟨?_, fun same => ?_⟩, fun n same => ?_⟩
      · have other : c ≠ '%' := by
          rintro rfl
          exact absurd starts (by decide)
        simp [isTempName, other]
      · have differs := List.find?_eq_none.1 noKeyword .returnWord (by decide)
        exact differs (decide_eq_true same.symm)
      · have first := head?_labelName n
        rw [← same, String.toList_ofList, List.head?_cons, Option.some.injEq] at first
        subst first
        exact absurd starts (by decide)

theorem plain_symbols : ∀ t ∈ symbols, t.Plain := by
  intro t member
  simp only [symbols, List.mem_append, List.mem_map] at member
  rcases member with (⟨op, -, rfl⟩ | ⟨op, -, rfl⟩) | member
  · trivial
  · trivial
  · simp only [List.mem_cons, List.not_mem_nil, or_false] at member
    rcases member with rfl | rfl | rfl | rfl | rfl | rfl | rfl | rfl | rfl | rfl <;> trivial

theorem plain_symbol? {cs : List Char} {piece : Piece} {token : Token} (found : symbol? cs = some piece)
    (is : piece.token = some token) : token.Plain := by
  obtain ⟨spelling, first, rfl⟩ := Option.map_eq_some_iff.1 found
  cases is
  have member := List.mem_of_find?_eq_some first
  simp only [spellings, List.mem_append, List.mem_filter, List.mem_map] at member
  obtain ⟨t, known, rfl⟩ : ∃ t ∈ symbols, (t.text.toList, t) = spelling := by
    rcases member with (member | member) | member <;> exact member.1
  exact plain_symbols t known

section

variable {c : Char} {rest : List Char} {piece : Piece} {token : Token}

theorem plain_number? (found : number? c rest = some piece) (is : piece.token = some token) :
    token.Plain := by
  have numbered : ∀ fraction : List Char, (if fraction.isEmpty then
        (Numeral.natural? 10 (c :: rest.takeWhile isDigit)).bind fun n =>
          if n ≤ maxInt then some ⟨some (.int n), (rest.takeWhile isDigit).length⟩ else none
      else some ⟨some (.decimal (String.ofList (c :: rest.takeWhile isDigit ++ '.' :: fraction))),
        (rest.takeWhile isDigit).length + 1 + fraction.length⟩) = some piece → token.Plain := by
    intro fraction found
    split at found
    · obtain ⟨n, -, found⟩ := Option.bind_eq_some_iff.1 found
      split at found
      · cases found
        cases is
        trivial
      · cases found
    · cases found
      cases is
      trivial
  exact numbered _ found

theorem plain_character? (found : character? rest = some piece) (is : piece.token = some token) :
    token.Plain := by
  unfold character? at found
  split at found
  · split at found
    · cases found
    · cases found
      cases is
      trivial
  · split at found
    · cases found
    · cases found
      cases is
      trivial
  · cases found

theorem plain_string? (found : string? rest = some piece) (is : piece.token = some token) :
    token.Plain := by
  obtain ⟨body, -, rfl⟩ := Option.map_eq_some_iff.1 found
  cases is
  trivial

theorem plain_recognise? (found : recognise? c rest = some piece) (is : piece.token = some token) :
    token.Plain := by
  have skipped : ∀ {n}, some (Piece.skip n) = some piece → token.Plain := by
    intro n same
    cases same
    cases is
  unfold recognise? at found
  split at found
  · exact skipped found
  split at found
  · exact skipped found
  split at found
  · exact plain_number? found is
  split at found
  · next starts =>
    cases found
    cases is
    exact plain_wordToken starts _
  split at found
  · exact plain_character? found is
  split at found
  · exact plain_string? found is
  split at found
  · exact skipped found
  · obtain ⟨n, -, same⟩ := Option.map_eq_some_iff.1 found
    exact skipped (congrArg some same)
  · exact plain_symbol? found is

end

theorem plain_scan {place : Place} {cs : List Char} (scanned : scan place cs = .ok tokens) :
    Plain tokens := by
  induction place, cs using scan.induct generalizing tokens with
  | case1 =>
    rw [scan] at scanned
    cases scanned
    exact fun _ member => nomatch member
  | case2 place c rest found =>
    rw [scan, found] at scanned
    cases scanned
  | case3 place c rest piece found behind =>
    rename_i ih
    rw [scan, found] at scanned
    dsimp only at scanned
    cases later : scan behind (rest.drop piece.extra) with
    | error e =>
      rw [later] at scanned
      cases scanned
    | ok lexemes =>
      rw [later] at scanned
      cases is : piece.token with
      | none =>
        rw [is] at scanned
        cases scanned
        exact ih later
      | some token =>
        rw [is] at scanned
        cases scanned
        exact List.forall_mem_cons.2 ⟨plain_recognise? found is, ih later⟩

theorem plain_markFrom (plain : Plain tokens) (afterOperand : Bool) : Plain (markFrom afterOperand tokens) := by
  induction tokens generalizing afterOperand with
  | nil => exact plain
  | cons l rest ih =>
    exact List.forall_mem_cons.2 ⟨plain.head, ih plain.tail _⟩

theorem plain_fold? {sign number folded : Lexeme} (found : fold? sign number = some folded) :
    folded.token.Plain := by
  unfold fold? at found
  split at found
  · obtain ⟨token, turned, rfl⟩ := Option.map_eq_some_iff.1 found
    unfold negated? at turned
    split at turned
    · cases turned
      trivial
    · cases turned
      trivial
    · cases turned
  · cases found

theorem plain_foldNegatives (plain : Plain tokens) : Plain (foldNegatives tokens) := by
  fun_induction foldNegatives tokens with
  | case1 sign number rest folded found ih =>
    exact List.forall_mem_cons.2 ⟨plain_fold? found, ih plain.tail.tail⟩
  | case2 sign number rest found ih =>
    exact List.forall_mem_cons.2 ⟨plain.head, ih plain.tail⟩
  | case3 => exact plain

end Lexer

theorem plain_tokenize {source : String} (cut : tokenize source = .ok tokens) : Plain tokens := by
  unfold tokenize at cut
  split at cut
  · next lexemes scanned =>
    cases cut
    exact Lexer.plain_foldNegatives (Lexer.plain_markFrom (Lexer.plain_scan scanned) _)
  · cases cut

/-! ### Cuts -/

namespace Parser

theorem findClose_within {opener : Lexeme} {depth : Nat} {e : Enclosed}
    (found : findClose opener depth tokens = .ok e) : e.inside ⊆ tokens ∧ e.after ⊆ tokens := by
  rw [findClose_eq found]
  exact ⟨List.subset_append_left _ _, fun l member => List.mem_append_right _ (List.mem_cons_of_mem _ member)⟩

theorem findSemicolon_within {line depth : Nat} {e : Ended}
    (found : findSemicolon line depth tokens = .ok e) : e.before ⊆ tokens ∧ e.after ⊆ tokens := by
  rw [findSemicolon_eq found]
  exact ⟨List.subset_append_left _ _, fun l member => List.mem_append_right _ (List.mem_cons_of_mem _ member)⟩

/-- The tokens of clauses are among those that were cut. -/
theorem splitClauses_within (separator : Token) (endLine depth : Nat) (tokens : List Lexeme) :
    ∀ clause ∈ splitClauses separator endLine depth tokens, clause.tokens ⊆ tokens := by
  have put : ∀ (l : Lexeme) {clauses : List Clause} {rest : List Lexeme},
      (∀ clause ∈ clauses, clause.tokens ⊆ rest) →
        ∀ clause ∈ consToFirst l clauses, clause.tokens ⊆ l :: rest := by
    intro l clauses rest within clause member
    cases clauses with
    | nil => cases member
    | cons first others =>
      rcases List.mem_cons.1 member with rfl | member
      · exact List.cons_subset_cons l (within first List.mem_cons_self)
      · exact fun t inside => List.mem_cons_of_mem l (within clause (List.mem_cons_of_mem _ member) inside)
  induction tokens generalizing depth with
  | nil =>
    intro clause member
    rw [splitClauses, List.mem_singleton] at member
    rw [member]
    exact List.Subset.refl _
  | cons l rest ih =>
    rw [splitClauses]
    split
    · refine List.forall_mem_cons.2 ⟨List.nil_subset _, fun clause member t inside => ?_⟩
      exact List.mem_cons_of_mem l (ih _ clause member inside)
    · exact put l (ih _)

theorem findIndices_within (tokens : List Lexeme) :
    (∀ clause ∈ (findIndices tokens).clauses, clause.tokens ⊆ tokens) ∧
      ∀ after, (findIndices tokens).after = .ok after → after ⊆ tokens := by
  fun_induction findIndices tokens with
  | case1 => exact ⟨fun _ member => (by cases member), fun _ is => by cases is; exact List.Subset.refl _⟩
  | case2 => exact ⟨fun _ member => (by cases member), fun _ is => (by cases is)⟩
  | case3 l rest opening enclosed closed ih =>
    obtain ⟨inside, after⟩ := findClose_within closed
    refine ⟨List.forall_mem_cons.2 ⟨fun t member => List.mem_cons_of_mem l (inside member), ?_⟩, ?_⟩
    · exact fun clause member t found => List.mem_cons_of_mem l (after (ih.1 clause member found))
    · exact fun rest is t found => List.mem_cons_of_mem l (after (ih.2 rest is found))
  | case4 => exact ⟨fun _ member => (by cases member), fun _ is => by cases is; exact List.Subset.refl _⟩

theorem parseStars_within (refs : Nat) (tokens : List Lexeme) : (parseStars refs tokens).2 ⊆ tokens := by
  induction tokens generalizing refs with
  | nil => exact List.Subset.refl _
  | cons l rest ih =>
    unfold parseStars
    split
    · exact fun t member => List.mem_cons_of_mem l (ih _ member)
    · exact List.Subset.refl _

theorem takeToken?_within {token : Token} {taken : Parsed Lexeme tokens.length}
    (found : takeToken? token tokens = some taken) : taken.rest ⊆ tokens := by
  unfold takeToken? at found
  split at found
  · cases found
  · split at found
    · cases found
      exact List.subset_cons_self _ _
    · cases found

end Parser

end SmallC
