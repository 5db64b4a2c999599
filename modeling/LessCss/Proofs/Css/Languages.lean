import LessCss.Proofs.Css.Blame
import LessCss.Proofs.Token.Languages
/-!
What the readers behind the tokens rely on.

Every token of a source belongs to the language of its kind (`Token.ofText_languages`). So no number is refused: not by
the reader of numbers, which never falls back to a single character, not where a value is read from tokens of the source
(`Expr.ofTokens_number`), and not by the compiler (`compile_number`).
-/
namespace LessCss

variable {source : Text}

theorem Token.belongs_of_mem {t : Token} (ht : t ∈ ofText source) :
    ∃ after, Lexeme.Belongs ⟨t.kind, t.text, after⟩ := by
  obtain ⟨tiles, htokens, -, hbelong⟩ := stream_belong none .start source
  have htokens : tiles.map Tile.token = ofText source := htokens
  rw [← htokens] at ht
  obtain ⟨tile, htile, rfl⟩ := List.mem_map.mp ht
  obtain ⟨before, after, rfl⟩ := List.append_of_mem htile
  exact ⟨_, hbelong.of_append⟩

theorem Token.parse?_of_number {t : Token} (ht : t ∈ ofText source) (hk : t.kind = .number) :
    (Measure.parse? t.text).isSome := by
  obtain ⟨after, hbelongs⟩ := belongs_of_mem ht
  simp only [Lexeme.Belongs, hk] at hbelongs
  exact Measure.matches_expression_iff.mp hbelongs.1

theorem Expr.ofTokens_number {us : List Token} (hus : us ⊆ Token.ofText source) {d : Diagnostic}
    (h : ofTokens us = .error d) (text : Text) : d.fault ≠ .invalidNumber text := by
  rcases eq_or_ne us [] with rfl | hne
  · obtain rfl := Except.error.inj h
    nofun
  · cases (ofTokens_ends hne).of_error h with
    | number ht hk hparse =>
      have hsome := Token.parse?_of_number (hus ht) hk
      rw [hparse] at hsome
      exact nomatch hsome
    | misfit _ hf =>
      rintro rfl
      exact nomatch hf

theorem compile_number {layout : Css.Layout} {d : Diagnostic} (h : compile layout source = .error d) (text : Text) :
    d.fault ≠ .invalidNumber text := by
  intro hfault
  have hends : Ends (fun _ => True) (·.Blames (Token.ofText source)) (compile layout source) :=
    (evaluate_ends source).map fun _ _ => trivial
  obtain ⟨hplaced, hunplaced⟩ := hends.of_error h
  cases hposition : d.position with
  | none =>
    have hitem := hunplaced hposition
    rw [hfault] at hitem
    exact nomatch hitem
  | some p =>
    obtain ⟨before, t, after, hts, -, hconcerns⟩ := hplaced p hposition
    rw [hfault] at hconcerns
    obtain ⟨hk, rfl, hparse⟩ := hconcerns
    have hmem : t ∈ Token.ofText source := hts ▸ List.mem_append_right before List.mem_cons_self
    have hsome := Token.parse?_of_number hmem hk
    rw [hparse] at hsome
    exact nomatch hsome

/-- The tokens of a source are tiles that make it up, and each belongs to the language of its kind before what follows
it. A number is a measure, and is refused nowhere. The places at which tokens are cut are within them. -/
theorem Token.ofText_languages (source : Text) :
    (∃ tiles, tiles.map Tile.token = ofText source ∧ tiles.flatMap Tile.text = source ∧
      ∀ before t after, tiles = before ++ t :: after →
        Lexeme.Belongs ⟨t.token.kind, t.token.text, after.flatMap Tile.text⟩) ∧
    (∀ t ∈ ofText source, t.kind = .number → (Measure.parse? t.text).isSome) ∧
    (∀ c cs, Lexeme.startsNumeral (c :: cs) = true ∨ c = '-' ∧ Lexeme.startsNumeral cs = true →
      Measure.read? (c :: cs) ≠ none) ∧
    (∀ us ⊆ ofText source, ∀ d, Expr.ofTokens us = .error d → ∀ text, d.fault ≠ .invalidNumber text) ∧
    (∀ layout d, compile layout source = .error d → ∀ text, d.fault ≠ .invalidNumber text) ∧
    ∀ t ∈ ofText source, t.Cuts := by
  refine ⟨?_, fun t ht hk => parse?_of_number ht hk, fun c cs h => ?_, fun us hus d h => Expr.ofTokens_number hus h,
    fun layout d h => compile_number h, fun t ht => ?_⟩
  · obtain ⟨tiles, htokens, htext, hbelong⟩ := stream_belong none .start source
    refine ⟨tiles, htokens, htext, ?_⟩
    rintro before t after rfl
    exact hbelong.of_append
  · obtain ⟨m, rest, hm, -⟩ := Lexeme.readNumber_eq h
    rw [hm]
    exact Option.some_ne_none _
  · obtain ⟨after, hbelongs⟩ := belongs_of_mem ht
    exact cuts_of_belongs hbelongs

/-- A number with a sign, an exponent and a unit, and a string with its quote in it. The source is refused, though for
no number. -/
theorem Token.ofText_languages_refused :
    let source := "@é: -.5e+3px f(\"\\\"\"); a \x7bb: ~\x7d".toList
    let number : Token := ⟨.number, "-.5e+3px".toList, ⟨1, 5⟩, true⟩
    let string : Token := ⟨.string, "\"\\\"\"".toList, ⟨1, 16⟩, false⟩
    (number ∈ ofText source ∧ (Measure.parse? number.text).isSome) ∧ (string ∈ ofText source ∧ string.Cuts) ∧
      compile .pretty source = .error (Fault.missingEscapedString.blame ⟨1, 29⟩) ∧
      ∀ text, (Fault.missingEscapedString.blame ⟨1, 29⟩).fault ≠ .invalidNumber text := by
  intro source number string
  have hnumber : number ∈ ofText source := by decide +kernel
  have hstring : string ∈ ofText source := by decide +kernel
  have hrefused : compile .pretty source = .error (Fault.missingEscapedString.blame ⟨1, 29⟩) := by decide +kernel
  obtain ⟨-, hnumbers, -, -, hcompile, hcuts⟩ := ofText_languages source
  exact ⟨⟨hnumber, hnumbers number hnumber rfl⟩, ⟨hstring, hcuts string hstring⟩, hrefused, hcompile _ _ hrefused⟩

end LessCss
