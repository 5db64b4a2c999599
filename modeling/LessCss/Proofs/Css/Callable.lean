import LessCss.Proofs.Css.Recursion
import LessCss.Proofs.Sheet.Grammar
import LessCss.Proofs.Token.Spell
/-!
The rules that can be called.

A rule with one selector that is the name of a mixin and a call of that mixin are read with the same name. The rule
defines the mixin if the name is ASCII, and then no call of it is undefined, wherever it stands. Names may have other
characters too, and a rule of such a name defines nothing (`Sheet.calls_of_rule`).
-/
namespace LessCss

def Text.isAscii (t : Text) : Bool := t.all fun c => c.toNat < 128

/-- The characters of a name are ASCII if and only if the name of a rule that can be called may hold them. -/
theorem isAlphanum_of_isNameChar {c : Char} (h : isNameChar c = true) :
    (c.isAlphanum || c == '_' || c == '-') = decide (c.toNat < 128) := by
  rw [isNameChar_iff, isNameStart_iff] at h
  rw [Bool.eq_iff_iff, Char.isAlphanum]
  simp only [Bool.or_eq_true, isAlpha_iff, isDigit_iff, beq_iff_eq, eq_iff_toNat, Char.reduceToNat, decide_eq_true_eq]
  omega

namespace Written.Name

variable {n : Written.Name}

theorem text_eq (h : ∀ t ∈ n.tokens, t.IsLexeme) : ∃ c name, n.text = c :: name ∧ (c = '.' ∨ c = '#') ∧ name ≠ [] ∧
    ∀ d ∈ name, isNameChar d = true := by
  cases n with
  | dotted dot word =>
    have hword : word.1.IsLexeme := h word.1 (.tail _ List.mem_cons_self)
    exact ⟨'.', word.1.text, rfl, .inl rfl, hword.text_ne_nil, hword.ident word.2.1⟩
  | hash t =>
    obtain ⟨name, htext, hne, hname⟩ := (h t.1 List.mem_cons_self).hash t.2
    exact ⟨'#', name, htext, .inr rfl, hne, hname⟩

theorem isCallable_text (h : ∀ t ∈ n.tokens, t.IsLexeme) : Scope.isCallable n.text = n.text.isAscii := by
  obtain ⟨c, name, htext, hc, hne, hname⟩ := text_eq h
  have hall : (name.all fun d => d.isAlphanum || d == '_' || d == '-') = name.all fun d => d.toNat < 128 := by
    rw [Bool.eq_iff_iff, List.all_eq_true, List.all_eq_true]
    exact forall₂_congr fun d hd => by rw [isAlphanum_of_isNameChar (hname d hd)]
  rw [htext, Scope.isCallable, hall, Text.isAscii, List.all_cons]
  rcases hc with rfl | rfl <;> simp [hne]

theorem join_tokens (h : ∀ t ∈ n.tokens, t.IsLexeme) : Token.join n.tokens = n.text := by
  cases n with
  | dotted dot word =>
    have hdot := (h dot.1 List.mem_cons_self).delim dot.2
    simp [tokens, text, Token.join, Token.joinPieces, Token.piece, Token.Piece.text, hdot, word.2.2]
  | hash t =>
    have hne := (h t.1 List.mem_cons_self).text_ne_nil
    simp [tokens, text, Token.join, Token.joinPieces, Token.piece, hne]

/-- A name alone in front of a block is its only selector. -/
def selectors (n : Written.Name) : Selectors where
  first.tokens := n.tokens
  first.ne_nil := by cases n <;> simp [tokens]
  first.fits := by
    cases n with
    | dotted dot word =>
      have hdot := of_decide_eq_true dot.2
      simp [tokens, inSelector, hdot, word.2.1, Token.isDelim]
    | hash t => simp [tokens, inSelector, t.2, Token.isDelim]
  others := []
  not_mixin opening commas close h := by
    have hmem : close.1 ∈ n.tokens := by
      have hrow : n.tokens = opening.tokens ++ commas.map (·.1) ++ [close.1] := by
        simpa [selectorTokens] using h
      simp [hrow]
    cases n with
    | dotted dot word =>
      rcases List.mem_pair.mp hmem with hclose | hclose
      · simpa [hclose, Tokens.kind_of_isDelim dot.2] using close.2
      · simpa [hclose, word.2.1] using close.2
    | hash t =>
      have hclose := List.mem_singleton.mp hmem
      simpa [hclose, t.2] using close.2

theorem lead_rule (h : ∀ t ∈ n.tokens, t.IsLexeme) (lbrace : Mark .lbrace) (rest : List Token) :
    Tokens.lead? (n.tokens ++ lbrace.1 :: rest) = .ok (some (.opened (.rule [n.text]), rest)) := by
  have htokens : (Header.rule n.selectors).tokens = n.tokens := List.append_nil _
  rw [← htokens, lead?_rule n.selectors lbrace, ← join_tokens h]
  rfl

end Written.Name

theorem Scopes.mixinsNamed_eq_nil {S : Scopes} {name : Text} (h : S.mixinsNamed name = []) {scope : Scope}
    (hscope : scope ∈ S) : scope.mixinsNamed name = [] := by
  induction S with
  | nil => exact nomatch hscope
  | cons t S ih =>
    cases ht : t.mixinsNamed name with
    | cons m ms => simp [mixinsNamed, ht] at h
    | nil =>
      rw [mixinsNamed_skip ht] at h
      rcases List.mem_cons.mp hscope with rfl | hscope
      · exact ht
      · exact ih h hscope

theorem Mixin.mem_bodyScopes {m : Mixin} {S T : Scopes} {args : List Value} (h : m.bodyScopes S args = .ok T)
    {scope : Scope} (hscope : scope ∈ S) : scope ∈ T := by
  cases m with
  | plain body =>
    obtain rfl := Except.ok.inj h
    exact .tail _ hscope
  | parametric params body =>
    obtain ⟨bound, -, heq⟩ := bind_eq_ok h
    obtain rfl := Except.ok.inj heq
    exact .tail _ (.tail _ hscope)

namespace Sheet

variable {s : Sheet} {chain : List (Text × Mixin)} {S : Scopes}

/-- The definitions of the sheet can be seen from every item that evaluation comes to. -/
theorem Visits.sees {i : Item} (h : s.Visits chain S i) : Scope.ofItems s.items ∈ S := by
  induction h with
  | start => exact List.mem_cons_self
  | rule _ _ ih => exact .tail _ ih
  | atRule _ _ ih => exact .tail _ ih
  | call _ _ _ _ hscopes _ ih => exact Mixin.mem_bodyScopes hscopes ih

theorem Visits.defined {c : Call} (h : s.Visits chain S (.call c)) {i : Item} (hi : i ∈ s.items) {m : Mixin}
    (hmixin : Scope.mixin? i = some (c.name, m)) : S.mixinsNamed c.name ≠ [] := by
  intro hnil
  have hm : m ∈ (Scope.ofItems s.items).mixinsNamed c.name :=
    List.mem_filterMap.mpr ⟨(c.name, m), List.mem_filterMap.mpr ⟨i, hi, hmixin⟩, if_pos rfl⟩
  rw [Scopes.mixinsNamed_eq_nil hnil h.sees] at hm
  exact nomatch hm

theorem Visits.undefined {c : Call} (h : s.Visits chain S (.call c)) (hname : c.name ∉ Item.mixinNamesAll s.items) :
    S.mixinsNamed c.name = [] := by
  refine List.eq_nil_iff_forall_not_mem.mpr fun m hm => hname ?_
  obtain ⟨scope, hscope, hmixin⟩ := Scopes.exists_of_mem_mixinsNamed hm
  exact (h.within.scopes scope hscope _ _ hmixin).1

theorem evaluate_defined {i : Item} (hi : i ∈ s.items) {name : Text} {m : Mixin}
    (hmixin : Scope.mixin? i = some (name, m)) {d : Diagnostic} (hd : s.evaluate = .error d) :
    d.fault ≠ .undefinedMixin name := by
  intro hfault
  cases (evaluate_reported s).of_error hd with
  | mixinless h =>
    rw [Diagnostic.Mixinless, hfault] at h
    cases h
  | undefined h hnone =>
    obtain rfl := Fault.undefinedMixin.inj hfault
    exact h.defined hi hmixin hnone
  | recursive | unmatched => cases hfault

/-- A call that evaluation comes to fails as undefined if nothing in the sheet defines a mixin of its name. The sheet
does not evaluate then. -/
theorem evaluate_undefined {c : Call} (h : s.Visits chain S (.call c)) (hname : c.name ∉ Item.mixinNamesAll s.items) :
    (∀ callable selectors, expand callable S selectors c = .error ((Fault.undefinedMixin c.name).blame c.position)) ∧
      ∀ ns, s.evaluate ≠ .ok ns := by
  have hexpand : ∀ callable selectors,
      expand callable S selectors c = .error ((Fault.undefinedMixin c.name).blame c.position) := by
    intro callable selectors
    rw [expand_eq, if_pos (List.isEmpty_iff.mpr (h.undefined hname))]
  refine ⟨hexpand, fun ns hs => ?_⟩
  obtain ⟨selectors, y, hy⟩ := h.yields hs
  exact nomatch (hexpand _ selectors).symm.trans hy

/-- A rule of the sheet whose selector is the name of a mixin, and a call of that mixin. Both are read with that name.
The rule defines the mixin if and only if the name is ASCII. Then no diagnostic calls it undefined. If it is not, and
nothing else in the sheet defines the mixin, then every call of it that evaluation comes to is undefined. -/
theorem calls_of_rule {n : Written.Name} {body : List Item} (hlexemes : ∀ t ∈ n.tokens, t.IsLexeme)
    (hrule : .rule [n.text] body ∈ s) :
    (∀ (lbrace : Written.Mark .lbrace) rest,
      Tokens.lead? (n.tokens ++ lbrace.1 :: rest) = .ok (some (.opened (.rule [n.text]), rest))) ∧
    (∀ importance (stop : Written.Mark .semicolon) rest,
      Tokens.lead? ((Written.Call.bare n importance stop).tokens ++ rest) =
        .ok (some (.call ⟨n.text, [], importance.isSome, (Tokens.next n.tokens).position⟩, rest))) ∧
    (n.text.isAscii = true → Scope.mixin? (.rule [n.text] body) = some (n.text, .plain body) ∧
      ∀ d, s.evaluate = .error d → d.fault ≠ .undefinedMixin n.text) ∧
    (n.text.isAscii = false → Scope.mixin? (.rule [n.text] body) = none ∧
      (n.text ∉ Item.mixinNamesAll s.items → ∀ chain S c, s.Visits chain S (.call c) → c.name = n.text →
        (∀ callable selectors,
          expand callable S selectors c = .error ((Fault.undefinedMixin n.text).blame c.position)) ∧
        ∀ ns, s.evaluate ≠ .ok ns)) := by
  have hcallable := Written.Name.isCallable_text hlexemes
  refine ⟨Written.Name.lead_rule hlexemes, fun importance stop rest => ?_, fun hascii => ?_, fun hascii => ?_⟩
  · have hnext : Tokens.next (Written.Call.bare n importance stop).tokens = Tokens.next n.tokens := by
      cases n <;> rfl
    rw [Written.Call.lead, ← hnext]
    rfl
  · rw [hascii] at hcallable
    have hmixin : Scope.mixin? (.rule [n.text] body) = some (n.text, .plain body) := if_pos hcallable
    exact ⟨hmixin, fun d hd => evaluate_defined (List.mem_filterMap.mpr ⟨_, hrule, rfl⟩) hmixin hd⟩
  · rw [hascii] at hcallable
    refine ⟨if_neg (by simp [hcallable]), fun hname chain S c h hc => ?_⟩
    rw [← hc] at hname ⊢
    exact evaluate_undefined h hname

/-- The name `.m` is ASCII. -/
theorem calls_of_rule_ascii :
    let source := ".m \x7b color: red; \x7d a \x7b .m; \x7d".toList
    let n : Written.Name :=
      .dotted ⟨⟨.delim, ['.'], ⟨1, 1⟩, false⟩, rfl⟩ ⟨⟨.ident, ['m'], ⟨1, 2⟩, false⟩, rfl, rfl⟩
    (∀ t ∈ n.tokens, t.IsLexeme) ∧ ∃ s body, parse source = .ok s ∧ .rule [n.text] body ∈ s ∧ n.text.isAscii = true ∧
      Scope.mixin? (.rule [n.text] body) = some (n.text, .plain body) ∧
      ∀ d, s.evaluate = .error d → d.fault ≠ .undefinedMixin n.text := by
  intro source n
  have hmem : ∀ t ∈ n.tokens, t ∈ Token.ofText source ∧ t.kind ≠ .eof := by decide +kernel
  have hlexemes : ∀ t ∈ n.tokens, t.IsLexeme := fun t ht => Token.isLexeme_of_mem (hmem t ht).1 (hmem t ht).2
  have hparsed : (parse source).toOption.any fun s =>
      s.any fun x => match x with | .rule own _ => own = [n.text] | _ => false := by
    decide +kernel
  obtain ⟨s, hs, hany⟩ := (Option.any_eq_true _ _).mp hparsed
  obtain ⟨x, hx, hrule⟩ := List.any_eq_true.mp hany
  split at hrule
  · next own body =>
    obtain rfl := of_decide_eq_true hrule
    exact ⟨hlexemes, s, body, eq_ok_of_toOption hs, hx, rfl, (calls_of_rule hlexemes hx).2.2.1 rfl⟩
  · exact nomatch hrule

/-- A letter that is not ASCII makes a name as well, and the call of the rule with this name is undefined. -/
theorem letter_uncallable :
    let source := ".é \x7b color: red; \x7d a \x7b .é; \x7d".toList
    let n : Written.Name :=
      .dotted ⟨⟨.delim, ['.'], ⟨1, 1⟩, false⟩, rfl⟩ ⟨⟨.ident, ['é'], ⟨1, 2⟩, false⟩, rfl, rfl⟩
    (∀ t ∈ n.tokens, t ∈ Token.ofText source) ∧ ∃ s body d, parse source = .ok s ∧ .rule [n.text] body ∈ s ∧
      s.evaluate = .error d ∧ d.fault = .undefinedMixin n.text := by
  intro source n
  have hmem : ∀ t ∈ n.tokens, t ∈ Token.ofText source := by decide +kernel
  have hparsed : (parse source).toOption.any fun s =>
      (s.any fun x => match x with | .rule own _ => own = [n.text] | _ => false) ∧
      (s.evaluate.mapError (·.fault)).map (fun _ => ()) = .error (.undefinedMixin n.text) := by
    decide +kernel
  obtain ⟨s, hs, hall⟩ := (Option.any_eq_true _ _).mp hparsed
  obtain ⟨hany, hfault⟩ := of_decide_eq_true hall
  obtain ⟨x, hx, hrule⟩ := List.any_eq_true.mp hany
  obtain ⟨d, hd, hfault⟩ := map_mapError_eq_error hfault
  split at hrule
  · next own body =>
    obtain rfl := of_decide_eq_true hrule
    exact ⟨hmem, s, body, d, eq_ok_of_toOption hs, hx, hd, hfault⟩
  · exact nomatch hrule

end Sheet
end LessCss
