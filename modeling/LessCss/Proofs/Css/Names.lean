import LessCss.Proofs.Css.Sources
import LessCss.Proofs.Sheet.Places
import LessCss.Proofs.Sheet.Written
import LessCss.Proofs.Token.Runs
/-!
Names that are read again from the text of a style sheet.

A sheet without unterminated tokens takes its names, and the heads of its at-rules, from runs of its own tokens. So
they are read again where they are printed (`Vocabulary.readable_finds`).
-/
namespace LessCss

open Token (spell words)
open Tokens (isStop next)

/-- The names and the heads that are read again where they are printed. -/
def Vocabulary.readable : Vocabulary where
  property name := ReadAs name fun s => [token .ident s name]
  head name params := ∃ p : Written.Params, (∀ t ∈ p.tokens, t.kind ≠ .unterminated) ∧
    Token.join p.tokens = params ∧ ReadAs (Css.atHead name params) fun s => token .atKeyword s ('@' :: name) :: p.tokens

section Runs

variable {b : Option Token.Kind} {s : Bool} {source : Text} {t u : Token} {ts us vs : List Token}

namespace Token

theorem text_of_atKeyword (h : spell b s source = t :: ts) (hk : t.kind = .atKeyword) : t.text = '@' :: t.name := by
  have hne : ts ≠ [] := rest_ne_nil (show _ = [t] ++ ts from h) (by simp [hk])
  obtain ⟨c, cs, -, -, -, hkind, htext, -⟩ := exists_lexeme h hne
  obtain ⟨-, hread⟩ := Lexeme.read_atKeyword (hkind.trans hk)
  rw [hread] at htext
  simp [name, hk, ← htext]

theorem spaced_after_atKeyword (h : spell b s source = t :: u :: us) (hk : t.kind = .atKeyword) (hu : u.kind ≠ .eof)
    (hminus : u.text = ['-']) : u.spaced = true := by
  obtain ⟨c, cs, -, -, -, hkind, -, hrest⟩ := exists_lexeme h (List.cons_ne_nil u us)
  obtain ⟨-, hread⟩ := Lexeme.read_atKeyword (hkind.trans hk)
  rw [hread] at hrest
  have hne : us ≠ [] := rest_ne_nil (show _ = [u] ++ us from hrest) (by simp [hu])
  obtain ⟨d, ds, hgap, hspaced, -, -, htext, -⟩ := exists_lexeme hrest hne
  dsimp only at hgap hspaced
  cases htaken : (gap .outside (cs.dropWhile isNameChar)).taken with
  | cons e es => simpa [htaken] using hspaced
  | nil =>
    have hcut := gap_append .outside (cs.dropWhile isNameChar)
    have hlexeme := Lexeme.read_append (some t.kind) u.spaced d ds
    rw [htext, hminus] at hlexeme
    obtain ⟨rfl, -⟩ := List.cons.inj hlexeme
    rw [htaken, hgap] at hcut
    have hhead := List.head?_dropWhile_not isNameChar cs
    rw [← hcut] at hhead
    simp [isNameChar] at hhead

end Token

namespace Vocabulary

/-- A run is read again from its text, if it does not begin with a minus that touches what is before it. -/
theorem readAs_run (hsource : ∀ t ∈ spell b s source, t.kind ≠ .unterminated) (h : t :: (ts ++ us) <:+ spell b s source)
    (hts : ∀ u ∈ t :: ts, u.kind ≠ .eof) (ht : t.kind = .operator → t.text = ['-'] → t.spaced = true) :
    ReadAs (words (t :: ts)) fun s => token t.kind s t.text :: ts := by
  obtain ⟨b', s', rest, hspell⟩ := Token.exists_spell_of_suffix h (List.cons_ne_nil _ _)
  refine Token.readAs_words hspell (Token.rest_ne_nil (show _ = t :: ts ++ us from hspell) hts) ?_ ?_
  · intro u hu
    exact hsource u (h.subset (List.mem_append_left us hu))
  · intro hk htext
    rw [ht hk htext]
    rfl

theorem readable_property (hsource : ∀ t ∈ spell b s source, t.kind ≠ .unterminated) (h : t :: ts <:+ spell b s source)
    (hk : t.kind = .ident) : readable.property t.text := by
  have hread : ReadAs (words [t]) fun s => [token t.kind s t.text] :=
    readAs_run hsource h (by simp [hk]) (by simp [hk])
  have hwords : words [t] = t.text := List.append_nil _
  rw [hk, hwords] at hread
  exact hread

/-- An at-keyword and the tokens after it that no `;` and no brace parts from it. -/
theorem readable_head (hsource : ∀ t ∈ spell b s source, t.kind ≠ .unterminated)
    (h : t :: (ts ++ us) <:+ spell b s source) (hk : t.kind = .atKeyword) (hts : ∀ u ∈ ts, isStop u = false)
    (hcolon : ∀ u ∈ ts.head?, u.kind ≠ .colon) : readable.head t.name (Token.join ts) := by
  obtain ⟨b', s', rest, hspell⟩ := Token.exists_spell_of_suffix h (List.cons_ne_nil _ _)
  have htext := Token.text_of_atKeyword hspell hk
  have hkeyword : ReadAs ('@' :: t.name) fun s => [token .atKeyword s ('@' :: t.name)] := by
    have hread : ReadAs (words [t]) fun s => [token t.kind s t.text] :=
      readAs_run hsource h (by simp [hk]) (by simp [hk])
    have hwords : words [t] = '@' :: t.name := (List.append_nil _).trans htext
    rw [hk, hwords, htext] at hread
    exact hread
  cases ts with
  | nil => exact ⟨⟨[], nofun, nofun⟩, nofun, rfl, by simpa [Css.atHead, Token.join, Token.joinPieces] using hkeyword⟩
  | cons u ts =>
    have hkinds : ∀ v ∈ u :: ts, v.kind ≠ .eof := fun v hv => Tokens.kind_ne_eof_of_not_stop (hts v hv)
    rw [List.forall_mem_cons] at hts
    have hsuffix : u :: (ts ++ us) <:+ spell b s source := (List.suffix_cons t _).trans h
    have hparams := readAs_run hsource hsuffix hkinds fun _ hminus =>
      Token.spaced_after_atKeyword hspell hk (hkinds u List.mem_cons_self) hminus
    have hterminated : ∀ v ∈ u :: ts, v.kind ≠ .unterminated :=
      fun v hv => hsource v (hsuffix.subset (List.mem_append_left us hv))
    have hne : u.text ≠ [] :=
      (Token.isLexeme_of_mem_spell (hsuffix.subset List.mem_cons_self) (hkinds u List.mem_cons_self)).text_ne_nil
    have hjoin : ∀ v : Token, v.text = u.text → Token.join (v :: ts) = words (u :: ts) := by
      intro v hv
      rw [Token.join_eq_words (by simpa [hv] using hne), words, words, hv]
    have hhead : Css.atHead t.name (words (u :: ts)) = '@' :: t.name ++ ' ' :: words (u :: ts) := by
      simp [Css.atHead, words, hne]
    rw [hjoin u rfl]
    refine ⟨⟨token u.kind true u.text :: ts, ?_, ?_⟩, ?_, hjoin _ rfl, ?_⟩
    · exact List.forall_mem_cons.mpr ⟨hts.1, hts.2⟩
    · exact fun v hv => Option.some.inj hv ▸ hcolon u rfl
    · rw [List.forall_mem_cons] at hterminated
      exact List.forall_mem_cons.mpr hterminated
    · rw [hhead]
      exact hkeyword.spaced hparams

theorem readable_head_before_stop (hsource : ∀ t ∈ spell b s source, t.kind ≠ .unterminated)
    (h : t :: ts <:+ spell b s source) (hk : t.kind = .atKeyword) (hcolon : (next ts).kind ≠ .colon) :
    readable.head t.name (Token.join (ts.takeWhile (!isStop ·))) := by
  have hcut : ts.takeWhile (!isStop ·) ++ ts.dropWhile (!isStop ·) = ts := List.takeWhile_append_dropWhile
  rw [← hcut] at h
  refine readable_head hsource h hk (fun u hu => by simpa using List.all_eq_true.mp List.all_takeWhile u hu) ?_
  intro u hu
  cases ts with
  | nil => exact nomatch hu
  | cons v ts =>
    rw [List.takeWhile_cons] at hu
    split at hu
    · obtain rfl := Option.some.inj hu
      exact hcolon
    · exact nomatch hu

theorem readable_finds (hsource : ∀ t ∈ spell b s source, t.kind ≠ .unterminated) :
    Tokens.Finds readable.criterion (spell b s source) where
  definition _ _ _ _ _ := trivial
  call _ _ _ _ _ := trivial
  header us h inside hus hlead := by
    intro name params hheader
    cases us with
    | nil => cases hlead
    | cons t ts =>
      cases Tokens.headedBy_of_lead? hlead with
      | rule | mixin => cases hheader
      | atRule hk hcolon hopens =>
        obtain ⟨rfl, rfl⟩ := Header.atRule.inj hheader
        rw [Tokens.takeWhile_of_opensBlock hopens]
        exact readable_head_before_stop hsource hus hk hcolon
  declaration us d rest hus _ hread := by
    obtain ⟨hname, -, -, -⟩ := Tokens.declarationAt_of_readDeclaration hread
    exact readable_property hsource hus hname
  directive t us d rest hus hk hlead hread := by
    cases Tokens.leadsTo_of_lead? hlead with
    | declaration hk' => exact absurd hk hk'
    | statement _ hcolon =>
      obtain @⟨params, rest, rfl, hfits, -⟩ := Tokens.directiveAt_of_readDirective hread
      refine readable_head hsource hus hk (fun u hu => (Tokens.inValue_eq_true_iff.mp (hfits u hu)).1) fun u hu => ?_
      cases params with
      | nil => cases hu
      | cons v params =>
        obtain rfl := Option.some.inj hu
        exact hcolon

end Vocabulary

end Runs

end LessCss
