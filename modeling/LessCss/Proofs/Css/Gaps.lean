import LessCss.Proofs.Css.Places
import LessCss.Proofs.Token.Relay
/-!
What stands between two tokens never changes a style sheet.

Texts with alike tokens have the same outcome (`compile_of_alike`), and a text and its relayed text have alike
tokens (`compile_relay`).
-/
namespace LessCss

open Token (bare)

/-- Tokens of the same kinds and texts, with the same gaps between them. Gaps before the first token and before
the end of the text do not count. -/
structure Token.Alike (ts us : List Token) : Prop where
  kind : ts.map (·.kind) = us.map (·.kind)
  text : ts.map (·.text) = us.map (·.text)
  spaced : (ts.tail.map fun t => t.spaced && t.kind ≠ .eof) = us.tail.map fun t => t.spaced && t.kind ≠ .eof

theorem Token.map_bare_eq {ts us : List Token} (hk : ts.map (·.kind) = us.map (·.kind))
    (ht : ts.map (·.text) = us.map (·.text))
    (hs : (ts.map fun t => t.spaced && t.kind ≠ .eof) = us.map fun t => t.spaced && t.kind ≠ .eof) :
    ts.map bare = us.map bare := by
  induction ts generalizing us with
  | nil =>
    cases us with
    | nil => rfl
    | cons u us => simp at hk
  | cons t ts ih =>
    cases us with
    | nil => simp at hk
    | cons u us =>
      simp only [List.map_cons, List.cons.injEq] at hk ht hs
      have hspaced := hs.1
      rw [hk.1] at hspaced
      simp only [List.map_cons, ih hk.2 ht.2 hs.2, bare, hk.1, ht.1, hspaced]

theorem Token.Alike.of_bare {ts us : List Token} {t : Token} {rest : List Token} {r : Bool}
    (hu : us.map bare = t :: rest) (ht : ts.map bare = t.respaced r :: rest) : Token.Alike ts us := by
  have hproject : ∀ {α : Type} (f : Token → α), ts.map (fun t => f t.bare) = f (t.respaced r) :: rest.map f ∧
      us.map (fun t => f t.bare) = f t :: rest.map f := by
    intro α f
    have h1 := congrArg (List.map f) ht
    have h2 := congrArg (List.map f) hu
    rw [List.map_map] at h1 h2
    exact ⟨h1, h2⟩
  refine ⟨?_, ?_, ?_⟩
  · exact (hproject (·.kind)).1.trans (hproject (·.kind)).2.symm
  · exact (hproject (·.text)).1.trans (hproject (·.text)).2.symm
  · have h := hproject (·.spaced)
    rw [List.map_tail, List.map_tail]
    exact (congrArg List.tail h.1).trans (congrArg List.tail h.2).symm

theorem Sheet.ofTokens_of_alike {ts us : List Token} (h : Token.Alike ts us) :
    forget Sheet.unplaced (Sheet.ofTokens ts) = forget Sheet.unplaced (Sheet.ofTokens us) := by
  rw [← Sheet.ofTokens_bare, ← Sheet.ofTokens_bare]
  obtain ⟨hk, ht, hs⟩ := h
  cases ts with
  | nil =>
    cases us with
    | nil => rfl
    | cons u us => simp at hk
  | cons t ts =>
    cases us with
    | nil => simp at hk
    | cons u us =>
      simp only [List.map_cons, List.cons.injEq, List.tail_cons] at hk ht hs
      rw [List.map_cons, List.map_cons, Token.map_bare_eq hk.2 ht.2 hs]
      have hrespaced : t.bare = u.bare.respaced t.bare.spaced := by simp [bare, Token.respaced, hk.1, ht.1]
      rw [hrespaced]
      exact Sheet.ofTokens_respaced _ _ _

/-- Where the places in a fault do not count, a text evaluates as its bare tokens do. -/
theorem forget_evaluate (t : Text) :
    forget id (evaluate t) = Sheet.ofTokens ((Token.ofText t).map bare) >>= Sheet.evaluate := by
  rw [Sheet.ofTokens_bare]
  exact (forget_bind fun s _ => Sheet.evaluate_unplaced s).symm

theorem evaluate_of_alike {other source : Text} (h : Token.Alike (Token.ofText other) (Token.ofText source)) :
    forget id (evaluate other) = forget id (evaluate source) := by
  rw [forget_evaluate, forget_evaluate, Sheet.ofTokens_bare, Sheet.ofTokens_bare, Sheet.ofTokens_of_alike h]

/-- A text evaluates as its tokens do, whether or not a gap is before them. -/
theorem evaluate_eq_ok_iff (s : Bool) {t : Text} {ns : List Css.Node} :
    evaluate t = .ok ns ↔ (Sheet.ofTokens (Token.spell none s t) >>= Sheet.evaluate) = .ok ns := by
  have hforget : forget id (evaluate t) = Sheet.ofTokens (Token.spell none s t) >>= Sheet.evaluate := by
    cases s with
    | false => exact forget_evaluate t
    | true =>
      obtain ⟨u, us, r, htext, hspaced⟩ := Token.spell_none false true t
      have halike : Token.Alike (Token.ofText (' ' :: t)) (Token.ofText t) := .of_bare htext hspaced
      rw [← evaluate_of_alike halike]
      exact forget_evaluate (' ' :: t)
  rw [← hforget]
  cases evaluate t <;> simp [forget]

theorem compile_of_alike {other source : Text} (h : Token.Alike (Token.ofText other) (Token.ofText source))
    (layout : Css.Layout) :
    (compile layout other).mapError Diagnostic.fault = (compile layout source).mapError Diagnostic.fault := by
  have hforget : ∀ t : Text, (compile layout t).mapError Diagnostic.fault =
      ((forget id (evaluate t)).map (Css.render layout)).mapError Diagnostic.fault := by
    intro t
    rw [compile]
    cases evaluate t <;> rfl
  rw [hforget, hforget, evaluate_of_alike h]

/-- A text whose gaps are made single spaces has alike tokens and the same outcome, and so has every other text
with alike tokens. -/
theorem compile_relay {source : Text} (h : ∀ t ∈ Token.ofText source, t.kind ≠ .unterminated) :
    Token.Alike (Token.ofText (Token.relay source)) (Token.ofText source) ∧
      (∀ layout, (compile layout (Token.relay source)).mapError Diagnostic.fault =
        (compile layout source).mapError Diagnostic.fault) ∧
      ∀ other, Token.Alike (Token.ofText other) (Token.ofText source) → ∀ layout,
        (compile layout other).mapError Diagnostic.fault = (compile layout source).mapError Diagnostic.fault := by
  obtain ⟨t, ts, r, hsource, hrelay⟩ := Token.relay_tokens h
  have halike := Token.Alike.of_bare hsource hrelay
  exact ⟨halike, compile_of_alike halike, fun other hother => compile_of_alike hother⟩

theorem compile_relay_comment :
    (∀ t ∈ Token.ofText "a /**/ {b:-1}".toList, t.kind ≠ .unterminated) ∧
      Token.relay "a /**/ {b:-1}".toList = "a {b:-1}".toList ∧
      Token.Alike (Token.ofText "a {b:-1}".toList) (Token.ofText "a /**/ {b:-1}".toList) ∧
      ∀ layout, (compile layout "a {b:-1}".toList).mapError Diagnostic.fault =
        (compile layout "a /**/ {b:-1}".toList).mapError Diagnostic.fault := by
  have hterminated : ∀ t ∈ Token.ofText "a /**/ {b:-1}".toList, t.kind ≠ .unterminated := by decide +kernel
  have hrelay : Token.relay "a /**/ {b:-1}".toList = "a {b:-1}".toList := by decide +kernel
  have h := compile_relay hterminated
  rw [hrelay] at h
  exact ⟨hterminated, hrelay, h.1, h.2.1⟩

end LessCss
