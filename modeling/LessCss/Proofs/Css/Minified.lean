import LessCss.Proofs.Token.Collapse
import LessCss.Proofs.Outcome
import LessCss.Compile
/-!
What the minified form does to the tokens of a style sheet.

The texts of a style sheet are the values of its properties and the parameters of its blocks. The minified form has
every one of them in it, collapsed, and a text keeps its tokens exactly if it is steady (`compile_minified`). A string
or a `url(…)` with two spaces in a row in it is not (`compile_minified_url`).
-/
namespace LessCss

namespace Css

namespace Node

mutual

/-- The values of the properties of a node and the parameters of its blocks, at any depth. -/
def texts : Node → List Text
  | .rule _ properties => properties.map (·.value)
  | .atRule _ params properties children => params :: properties.map (·.value) ++ textsAll children
  | .directive _ _ => []

def textsAll : List Node → List Text
  | [] => []
  | n :: ns => texts n ++ textsAll ns

end

end Node

variable {v : Text}

theorem infix_join (glue : Text) {part : Text} {parts : List Text} (h : part ∈ parts) :
    part <:+: Text.join glue parts := by
  induction parts with
  | nil => exact nomatch h
  | cons first parts ih =>
    cases parts with
    | nil =>
      obtain rfl := List.mem_singleton.mp h
      exact ⟨[], [], by simp [Text.join]⟩
    | cons second parts =>
      have hjoin : Text.join glue (first :: second :: parts) = first ++ glue ++ Text.join glue (second :: parts) :=
        List.intercalate_cons_cons
      rw [hjoin]
      rcases List.mem_cons.mp h with rfl | h
      · exact ⟨[], glue ++ Text.join glue (second :: parts), by simp⟩
      · exact (ih h).trans (List.suffix_append _ _).isInfix

theorem Property.infix_minified (p : Property) : Text.collapse p.value <:+: p.minified := by
  rw [minified]
  generalize (if p.important then "!important".toList else []) = mark
  exact ⟨p.name ++ [':'], mark, by simp⟩

theorem infix_minifiedProperties {ps : List Property} (hv : v ∈ ps.map (·.value)) :
    Text.collapse v <:+: minifiedProperties ps := by
  obtain ⟨p, hp, rfl⟩ := List.mem_map.mp hv
  exact p.infix_minified.trans (infix_join [';'] (List.mem_map_of_mem hp))

namespace Node

mutual

theorem infix_minified (n : Node) (hv : v ∈ n.texts) : Text.collapse v <:+: n.minified := by
  cases n with
  | rule selectors properties =>
    have hne : properties.isEmpty = false := by
      cases properties with
      | nil => exact nomatch hv
      | cons p ps => rfl
    rw [minified, hne]
    exact (infix_minifiedProperties hv).trans ⟨Text.join [','] selectors ++ ['\x7b'], ['}'], by simp⟩
  | atRule name params properties children =>
    rw [texts, List.mem_append, List.mem_cons] at hv
    rw [minified]
    generalize hhead : '@' :: name ++ (if params.isEmpty then [] else ' ' :: Text.collapse params) = head
    rcases hv with (rfl | hv) | hv
    · have hparams : Text.collapse v <:+: head := by
        subst hhead
        cases v with
        | nil => exact ⟨[], _, rfl⟩
        | cons c v => exact ⟨'@' :: name ++ [' '], [], by simp⟩
      exact hparams.trans ⟨[], '\x7b' :: minifiedProperties properties ++ minifiedAll children ++ ['}'], by simp⟩
    · exact (infix_minifiedProperties hv).trans ⟨head ++ ['\x7b'], minifiedAll children ++ ['}'], by simp⟩
    · exact (infix_minifiedAll children hv).trans
        ⟨head ++ '\x7b' :: minifiedProperties properties, ['}'], by simp⟩
  | directive name params => exact nomatch hv

theorem infix_minifiedAll (ns : List Node) (hv : v ∈ textsAll ns) : Text.collapse v <:+: minifiedAll ns := by
  cases ns with
  | nil => exact nomatch hv
  | cons n ns =>
    rw [textsAll, List.mem_append] at hv
    rw [minifiedAll]
    rcases hv with hv | hv
    · exact (infix_minified n hv).trans (List.prefix_append _ _).isInfix
    · exact (infix_minifiedAll ns hv).trans (List.suffix_append _ _).isInfix

end

end Node

end Css

open Token (spellings Steady)

/-- The minified form has every text of the style sheet in it, collapsed. That leaves the tokens of the text as they
are exactly if it is steady. -/
theorem compile_minified {source : Text} {ns : List Css.Node} (h : evaluate source = .ok ns) :
    ∃ css, compile .minified source = .ok css ∧ ∀ v ∈ Css.Node.textsAll ns,
      Text.collapse v <:+: css ∧ (spellings (Text.collapse v) = spellings v ↔ Steady none v) := by
  refine ⟨Css.Node.minifiedAll ns, by rw [compile, h]; rfl, fun v hv => ⟨?_, ?_⟩⟩
  · exact Css.Node.infix_minifiedAll ns hv
  · exact Token.spellings_collapse v

/-- What a source text evaluates to has these texts. -/
theorem exists_evaluate_texts {source : Text} {vs : List Text}
    (h : (evaluate source).toOption.map Css.Node.textsAll = some vs) :
    ∃ ns, evaluate source = .ok ns ∧ Css.Node.textsAll ns = vs := by
  obtain ⟨ns, hns, htexts⟩ := Option.map_eq_some_iff.mp h
  exact ⟨ns, eq_ok_of_toOption hns, htexts⟩

theorem compile_minified_words : ∃ (source v css : Text) (ns : List Css.Node),
    source = "a \x7b b: url( x y )  -1px; \x7d".toList ∧ evaluate source = .ok ns ∧ v ∈ Css.Node.textsAll ns ∧
      compile .minified source = .ok css ∧ Text.collapse v <:+: css ∧ Steady none v := by
  have hevaluate : (evaluate "a \x7b b: url( x y )  -1px; \x7d".toList).toOption.map Css.Node.textsAll =
      some ["url( x y ) -1px".toList] := by decide +kernel
  obtain ⟨ns, hns, htexts⟩ := exists_evaluate_texts hevaluate
  obtain ⟨css, hcss, h⟩ := compile_minified hns
  have hv : "url( x y ) -1px".toList ∈ Css.Node.textsAll ns := by simp [htexts]
  exact ⟨_, _, css, ns, rfl, hns, hv, hcss, (h _ hv).1, (h _ hv).2.mp (by decide +kernel)⟩

/-- A `url(…)` with two spaces in a row in it becomes another one. -/
theorem compile_minified_url : ¬∀ (source : Text) (ns : List Css.Node), evaluate source = .ok ns →
    ∀ v ∈ Css.Node.textsAll ns, spellings (Text.collapse v) = spellings v := by
  intro h
  have hevaluate : (evaluate "a \x7b b: url(\"x  y\"); \x7d".toList).toOption.map Css.Node.textsAll =
      some ["url(\"x  y\")".toList] := by decide +kernel
  obtain ⟨ns, hns, htexts⟩ := exists_evaluate_texts hevaluate
  have hspellings := h _ ns hns "url(\"x  y\")".toList (by simp [htexts])
  exact absurd hspellings (by decide +kernel)

end LessCss
