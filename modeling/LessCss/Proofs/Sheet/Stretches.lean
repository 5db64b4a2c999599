import LessCss.Proofs.Sheet.Blame
import LessCss.Proofs.Sheet.Places
import LessCss.Proofs.Sheet.Signature
/-!
Values as stretches of a row.

Every value of a sheet that is read from a row stands in the row without a break, and so do the parameters of every
block (`Tokens.findsOn_stretches`). The end of the text belongs to none of them.
-/
namespace LessCss

/-- What is asked of the values in a sheet, and of the parameters of its blocks. -/
def Criterion.texts (V : List Token → Prop) (Q : Text → Prop) : Criterion where
  header
    | .mixin _ params => ∀ p ∈ params, ∀ value ∈ p.fallback, V value
    | .atRule _ params => Q params
    | .rule _ => True
  definition d := V d.value
  call c := ∀ value ∈ c.args, V value
  declaration d := V d.value

namespace Tokens

/-- A stretch of a row, without the end of the text. -/
structure Stretch (ts value : List Token) : Prop where
  unbroken : value <:+: ts
  inside : ∀ t ∈ value, t.kind ≠ .eof

/-- The token stands between the name of an at-rule and the `{` of its block. -/
def InPrelude (ts : List Token) (u : Token) : Prop := ∃ t after name params inside, Visits ts (t :: after) ∧
  lead? (t :: after) = .ok (some (.opened (.atRule name params), inside)) ∧ u ∈ after.takeWhile (·.kind ≠ .lbrace)

variable {t : Token} {ts us value rest : List Token}

theorem Stretch.mono (h : Stretch us value) (hus : us <:+: ts) : Stretch ts value := ⟨h.unbroken.trans hus, h.inside⟩

theorem Stretch.narrow (h : Stretch ts us) (hvalue : value <:+: us) : Stretch ts value :=
  ⟨hvalue.trans h.unbroken, fun t ht => h.inside t (hvalue.subset ht)⟩

theorem stretch_before_stop (ts : List Token) : Stretch ts (ts.takeWhile (!isStop ·)) where
  unbroken := (List.takeWhile_prefix _).isInfix
  inside t ht := kind_ne_eof_of_not_stop (by simpa using List.all_eq_true.mp List.all_takeWhile t ht)

theorem ValueAt.stretch (h : ValueAt ts value rest) : Stretch ts value where
  unbroken := h.row ▸ (List.prefix_append value rest).isInfix
  inside t ht := kind_ne_eof_of_not_stop (inValue_eq_true_iff.mp (h.fits t ht)).1

theorem readDefinition_stretch {d : Definition} (h : readDefinition t ts = .ok (d, rest)) : Stretch ts d.value := by
  obtain ⟨hvalue, -, -⟩ := definitionAt_of_readDefinition h
  exact hvalue.stretch

theorem readDeclaration_stretch {d : Declaration} (h : readDeclaration ts = .ok (d, rest)) : Stretch ts d.value := by
  obtain @⟨name, colon, ts, written, rest, -, -, hvalue, -⟩ := declarationAt_of_readDeclaration h
  have hstretch := hvalue.stretch.narrow (isPrefix_takeImportant written).isInfix
  exact hstretch.mono ((List.suffix_cons colon ts).trans (List.suffix_cons name _)).isInfix

/-- The first piece stands at the head of the row. -/
theorem infix_of_pieces (separator : Token.Kind) (depth : Nat) (ts : List Token) :
    ∃ p ps, pieces separator depth ts = p :: ps ∧ p <+: ts ∧ ∀ q ∈ ps, q <:+: ts := by
  fun_induction pieces separator depth ts with
  | case1 => exact ⟨[], [], rfl, List.prefix_refl _, List.forall_mem_nil _⟩
  | case2 depth t ts hk ih =>
    obtain ⟨p, ps, heq, hp, hps⟩ := ih
    have htail : ts <:+: t :: ts := (List.suffix_cons t ts).isInfix
    refine ⟨[], _, rfl, List.nil_prefix, ?_⟩
    rw [heq]
    exact List.forall_mem_cons.mpr ⟨hp.isInfix.trans htail, fun q hq => (hps q hq).trans htail⟩
  | case3 depth t ts hk d hnil ih => exact absurd hnil (pieces_ne_nil _ _ _)
  | case4 depth t ts hk d p ps heq ih =>
    obtain ⟨p', ps', heq', hp, hps⟩ := ih
    rw [heq] at heq'
    obtain ⟨rfl, rfl⟩ := List.cons.inj heq'
    exact ⟨t :: p, ps, rfl, List.cons_prefix_cons.mpr ⟨rfl, hp⟩,
      fun q hq => (hps q hq).trans (List.suffix_cons t ts).isInfix⟩

theorem infix_of_mem_arguments : ∀ a ∈ arguments ts, a <:+: ts := by
  intro a ha
  obtain ⟨p, ps, heq, hp, hps⟩ :=
    infix_of_pieces (if ts.any (·.kind = .semicolon) then .semicolon else .comma) 0 ts
  have hmem := (List.mem_filter.mp ha).1
  rw [heq] at hmem
  rcases List.mem_cons.mp hmem with rfl | hmem
  · exact hp.isInfix
  · exact hps a hmem

theorem argumentList_stretch {s : Signature} (h : Signature.read? ts = some s) : ∀ a ∈ s.argumentList, Stretch ts a := by
  intro a ha
  cases Written.spells_of_read? h with
  | name => cases ha
  | opening o args close rest hdepth =>
    have hargs : args <:+: o.tokens ++ (args ++ close.1 :: rest) := ⟨o.tokens, close.1 :: rest, by simp⟩
    refine Stretch.narrow ⟨hargs, fun t ht heof => ?_⟩ (infix_of_mem_arguments a ha)
    have hbarrier := barrier_of_mem hdepth t ht
    simp [endsArguments, heof] at hbarrier

theorem fallback_of_parameter {p : Parameter} (h : Signature.parameter ts = .ok p) :
    ∀ value ∈ p.fallback, value <:+: ts := by
  unfold Signature.parameter at h
  dsimp only at h
  split at h
  · cases h
  · split at h
    · obtain rfl := Except.ok.inj h
      rintro value ⟨⟩
    · next c fallback htail =>
      split at h
      · cases h
      · split at h
        · cases h
        · obtain rfl := Except.ok.inj h
          rintro value ⟨⟩
          have hfallback : fallback <:+ ts.tail := htail ▸ List.suffix_cons c fallback
          exact (hfallback.trans (List.tail_suffix ts)).isInfix

variable {Q : Text → Prop}

/-- The values and the parameters of blocks that are read from a row are stretches of it. -/
theorem findsOn_stretches (hQ : ∀ params, Stretch ts params → (∀ u ∈ params, InPrelude ts u) → Q (Token.join params)) :
    FindsOn (.texts (Stretch ts) Q) ts where
  header us h inside hus hlead := by
    cases us with
    | nil => cases hlead
    | cons t us =>
      cases leadsTo_of_lead? hlead with
      | rule => trivial
      | atRule hk hcolon hopens =>
        refine hQ (us.takeWhile (·.kind ≠ .lbrace)) ?_ fun u hu => ⟨t, us, _, _, _, hus, hlead, hu⟩
        rw [takeWhile_of_opensBlock hopens]
        exact (stretch_before_stop us).mono ((List.suffix_cons t us).trans hus.suffix).isInfix
      | @mixin s params hk hread hs hparams =>
        have hfallbacks : ∀ a ∈ s.argumentList,
            Ends (fun p : Parameter => ∀ value ∈ p.fallback, Stretch ts value) (fun _ => True) (Signature.parameter a) := by
          intro a ha
          cases hp : Signature.parameter a with
          | error d => trivial
          | ok p =>
            exact fun value hvalue =>
              ((argumentList_stretch hread a ha).narrow (fallback_of_parameter hp value hvalue)).mono hus.suffix.isInfix
        exact (Ends.mapM hfallbacks).of_ok hparams
  definition us d rest hus hlead := by
    cases us with
    | nil => cases hlead
    | cons t us =>
      cases leadsTo_of_lead? hlead with
      | definition hk hcolon hread =>
        have hsuffix : us.tail <:+ ts := ((List.tail_suffix us).trans (List.suffix_cons t us)).trans hus.suffix
        exact (readDefinition_stretch hread).mono hsuffix.isInfix
  call us c rest hus hlead := by
    cases us with
    | nil => cases hlead
    | cons t us =>
      cases leadsTo_of_lead? hlead with
      | @call s hk hread hs => exact fun value hvalue => (argumentList_stretch hread value hvalue).mono hus.suffix.isInfix
  declaration us d rest hus _ hread := (readDeclaration_stretch hread).mono hus.suffix.isInfix
  directive _ _ _ _ _ _ _ _ := trivial

end Tokens

/-- What a sheet is read from. -/
theorem Sheet.stretches_of_ofTokens {ts : List Token} {s : Sheet} {Q : Text → Prop} (h : ofTokens ts = .ok s)
    (hQ : ∀ params, Tokens.Stretch ts params → (∀ u ∈ params, Tokens.InPrelude ts u) → Q (Token.join params)) :
    ∀ x ∈ s, x.Meets (.texts (Tokens.Stretch ts) Q) := by
  rw [ofTokens] at h
  split at h
  · cases h
  · exact ((Tokens.readStatements_ends (Tokens.findsOn_stretches hQ) (.any ts) .refl).of_ok h).1

end LessCss
