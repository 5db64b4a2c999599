import Mathlib.Data.List.Induction
import LessCss.Proofs.Css.Chains
import LessCss.Proofs.Css.Flattening
import LessCss.Proofs.Token.Collapse
/-!
The shape of a style sheet that is evaluated.

Every rule in it has declarations and selectors, none of which is empty, and directives stand only outside of at-rules.
Each at-rule comes from an at-rule of the sheet (`AtSite`), and has declarations of its own only if no rule stands around
that one, not even around the calls that lead to it (`Sheet.evaluate_shape`).

Selectors stay filled because each begins with a character that is no blank: no token begins with a blank, and neither
the joining of tokens nor the combining of selectors puts anything in front.
-/
namespace LessCss

/-- A text that begins with a character other than a blank. -/
def Text.Unindented (t : Text) : Prop := ∃ c cs, t = c :: cs ∧ isBlank c = false

namespace Text.Unindented

variable {t parent child : Text}

theorem ne_nil (h : Unindented t) : t ≠ [] := by
  obtain ⟨c, cs, rfl, -⟩ := h
  exact List.cons_ne_nil c cs

theorem append (h : Unindented t) (u : Text) : Unindented (t ++ u) := by
  obtain ⟨c, cs, rfl, hc⟩ := h
  exact ⟨c, cs ++ u, rfl, hc⟩

theorem trim (h : Unindented t) : Unindented (Text.trim t) := by
  obtain ⟨c, cs, rfl, hc⟩ := h
  have hstart : trimStart (c :: cs) = c :: cs := trimStart_append_cons hc [] cs
  have hend : trimEnd (c :: cs) = c :: trimEnd cs := trimEnd_append_cons hc [] cs
  exact ⟨c, trimEnd cs, by rw [Text.trim, hstart, hend], hc⟩

theorem substitute (h : Unindented child) (hparent : Unindented parent) (old : Char) :
    Unindented (Text.substitute old parent child) := by
  obtain ⟨c, cs, rfl, hc⟩ := h
  rw [Text.substitute, List.flatMap_cons]
  split
  · exact hparent.append _
  · exact ⟨c, _, rfl, hc⟩

/-- A selector that is put into a parent begins as the parent does or as before. -/
theorem nestSelector (h : Unindented child) (hparent : Unindented parent) :
    Unindented (Css.nestSelector parent child) := by
  rw [Css.nestSelector]
  split
  · exact (h.substitute hparent '&').trim
  · exact hparent.trim.append _

end Text.Unindented

theorem Token.unindented_of_mem {b : Option Kind} {p : Position} {text : Text} {t : Token} (h : t ∈ stream b p text)
    (hk : t.kind ≠ .eof) : t.text.Unindented := by
  induction hn : text.length using Nat.strongRecOn generalizing b p text with
  | ind n ih =>
    cases hg : (gap .outside text).rest with
    | nil =>
      rw [stream_nil hg] at h
      obtain rfl := List.mem_singleton.mp h
      exact absurd rfl hk
    | cons c cs =>
      rw [stream_cons hg] at h
      rcases List.mem_cons.mp h with rfl | h
      · obtain ⟨d, ds, htext⟩ :=
          List.exists_cons_of_ne_nil (Lexeme.read_text_ne_nil b (!(gap .outside text).taken.isEmpty) c cs)
        have happend := Lexeme.read_append b (!(gap .outside text).taken.isEmpty) c cs
        rw [htext] at happend
        obtain ⟨rfl, -⟩ := List.cons.inj happend
        exact ⟨d, ds, htext, Token.isBlank_of_gap hg⟩
      · exact ih _ (hn ▸ rest_length_lt hg b _) h rfl

namespace Css

variable {levels : List (List Text)} {parents own : List Text}

/-- There are selectors on every level, and each begins with a character other than a blank. -/
def Unindented (levels : List (List Text)) : Prop := ∀ own ∈ levels, own ≠ [] ∧ ∀ t ∈ own, t.Unindented

theorem nestSelectors_unindented (hparents : ∀ t ∈ parents, t.Unindented) (hown : ∀ t ∈ own, t.Unindented) :
    ∀ t ∈ nestSelectors parents own, t.Unindented := by
  rw [nestSelectors]
  split
  · exact hown
  · intro t ht
    obtain ⟨p, hp, ht⟩ := List.mem_flatMap.mp ht
    obtain ⟨c, hc, rfl⟩ := List.mem_map.mp ht
    exact (hown c hc).nestSelector (hparents p hp)

/-- The selectors of all levels in one begin with no blank, and there are some if there is a level. -/
theorem Unindented.combined (h : Unindented levels) :
    (∀ t ∈ combined levels, t.Unindented) ∧ (combined levels = [] → levels = []) := by
  induction levels using List.reverseRecOn with
  | nil => exact ⟨List.forall_mem_nil _, fun _ => rfl⟩
  | append_singleton levels own ih =>
    obtain ⟨hlevels, hown⟩ := List.forall_mem_append.mp h
    obtain ⟨hne, hown⟩ := List.forall_mem_singleton.mp hown
    rw [combined_concat]
    exact ⟨nestSelectors_unindented (ih hlevels).1 hown, fun hnil => absurd hnil (nestSelectors_ne_nil _ hne)⟩

namespace Node

mutual

/-- A node as it may stand inside of an at-rule: a rule with declarations and selectors that are not empty, or an at-rule
with such nodes inside. -/
def Nested : Node → Prop
  | .rule selectors properties => properties ≠ [] ∧ selectors ≠ [] ∧ ∀ t ∈ selectors, t ≠ []
  | .atRule _ _ _ children => NestedAll children
  | .directive .. => False

def NestedAll : List Node → Prop
  | [] => True
  | n :: ns => Nested n ∧ NestedAll ns

end

theorem nestedAll_iff {ns : List Node} : NestedAll ns ↔ ∀ n ∈ ns, n.Nested := by
  induction ns with
  | nil => simp [NestedAll]
  | cons n ns ih => simp [NestedAll, ih]

/-- A node as it may stand outside of at-rules. -/
def TopLevel (n : Node) : Prop := n.Nested ∨ ∃ name params, n = .directive name params

end Node

/-- An at-rule of a style sheet with the declarations that are directly in it. -/
structure AtRule where
  name : Text
  params : Text
  properties : List Property

namespace Node

mutual

/-- The at-rules in a node, at any depth, each before those inside of it. -/
def atRules : Node → List AtRule
  | .rule .. => []
  | .atRule name params properties children => ⟨name, params, properties⟩ :: atRulesAll children
  | .directive .. => []

def atRulesAll : List Node → List AtRule
  | [] => []
  | n :: ns => atRules n ++ atRulesAll ns

end

theorem atRulesAll_append (ns ms : List Node) : atRulesAll (ns ++ ms) = atRulesAll ns ++ atRulesAll ms := by
  induction ns with
  | nil => rfl
  | cons n ns ih => rw [List.cons_append, atRulesAll, atRulesAll, ih, List.append_assoc]

end Node

end Css

/-- An at-rule of a sheet and the selectors of the rules around it from the outermost in. The rules around a call come
before those in the body of the mixin that is called. -/
structure AtSite where
  name : Text
  params : Text
  levels : List (List Text)

mutual

/-- The sites of the at-rules in an item that stands in the scopes `S` and in rules with the selectors `levels`. -/
inductive Item.AtSites : Scopes → List (List Text) → Item → List AtSite → Prop
  | declaration {S levels d} : Item.AtSites S levels (.declaration d) []
  | definition {S levels d} : Item.AtSites S levels (.definition d) []
  | mixin {S levels name params body} : Item.AtSites S levels (.mixin name params body) []
  | rule {S levels own body os} (h : Item.AtSitesAll (.ofItems body :: S) (levels ++ [own]) body os) :
      Item.AtSites S levels (.rule own body) os
  | atRule {S levels name params body os} (h : Item.AtSitesAll (.ofItems body :: S) levels body os) :
      Item.AtSites S levels (.atRule name params body) (⟨name, params, levels⟩ :: os)
  | call {S levels c args os} (hargs : c.args.mapM S.evaluate = .ok args)
      (h : Mixin.AtSitesAll S levels args ((S.mixinsNamed c.name).filter (Mixin.accepts args.length)) os) :
      Item.AtSites S levels (.call c) os

inductive Item.AtSitesAll : Scopes → List (List Text) → List Item → List AtSite → Prop
  | nil {S levels} : Item.AtSitesAll S levels [] []
  | cons {S levels i is os os'} (h : Item.AtSites S levels i os) (hs : Item.AtSitesAll S levels is os') :
      Item.AtSitesAll S levels (i :: is) (os ++ os')

inductive Mixin.AtSitesAll : Scopes → List (List Text) → List Value → List Mixin → List AtSite → Prop
  | nil {S levels args} : Mixin.AtSitesAll S levels args [] []
  | cons {S levels args m ms T os os'} (hscopes : m.bodyScopes S args = .ok T)
      (h : Item.AtSitesAll T levels m.body os) (hs : Mixin.AtSitesAll S levels args ms os') :
      Mixin.AtSitesAll S levels args (m :: ms) (os ++ os')

end

def Sheet.AtSites (s : Sheet) (os : List AtSite) : Prop := Item.AtSitesAll [.ofItems s.items] [] s.items os

theorem Item.AtSitesAll.append {S : Scopes} {levels : List (List Text)} {is js : List Item} {os os' : List AtSite}
    (h : AtSitesAll S levels is os) (h' : AtSitesAll S levels js os') : AtSitesAll S levels (is ++ js) (os ++ os') := by
  induction is generalizing os with
  | nil =>
    cases h with
    | nil => exact h'
  | cons i is ih =>
    cases h with
    | cons hi his =>
      rw [List.append_assoc]
      exact .cons hi (ih his)

/-- The at-rule of a site has its name and its params, and declarations of its own only outside of rules. -/
structure AtSite.Makes (o : AtSite) (r : Css.AtRule) : Prop where
  name : r.name = o.name
  params : r.params = o.params
  outside : r.properties ≠ [] → o.levels = []

/-- Nodes as they may stand inside of an at-rule, with one at-rule for each site in this order. -/
structure Shaped (os : List AtSite) (ns : List Css.Node) : Prop where
  nested : ∀ n ∈ ns, n.Nested
  made : List.Forall₂ AtSite.Makes os (Css.Node.atRulesAll ns)

namespace Shaped

variable {os os' : List AtSite} {ns ns' : List Css.Node} {levels : List (List Text)} {y : Yield}

theorem nil : Shaped [] [] := ⟨List.forall_mem_nil _, .nil⟩

theorem append (h : Shaped os ns) (h' : Shaped os' ns') : Shaped (os ++ os') (ns ++ ns') where
  nested := List.forall_mem_append.mpr ⟨h.nested, h'.nested⟩
  made := by
    rw [Css.Node.atRulesAll_append]
    exact List.rel_append h.made h'.made

theorem underRule (h : Shaped os y.nodes) {selectors : List Text} (hne : selectors ≠ [])
    (hfilled : ∀ t ∈ selectors, t ≠ []) : Shaped os (y.underRule selectors) := by
  rw [Yield.underRule]
  split
  · exact h
  · next hproperties =>
    have hrule : Shaped [] [.rule selectors y.properties] :=
      ⟨List.forall_mem_singleton.mpr ⟨by simpa using hproperties, hne, hfilled⟩, .nil⟩
    exact hrule.append h

/-- Inside of rules the declarations of an at-rule are in a rule with the selectors of these. -/
theorem underAtRule (h : Shaped os y.nodes) (hlevels : Css.Unindented levels) (name params : Text) :
    Shaped (⟨name, params, levels⟩ :: os) [y.underAtRule name params (Css.combined levels)] := by
  obtain ⟨hfilled, houtside⟩ := hlevels.combined
  have hnode : ∀ {properties children}, (properties ≠ [] → levels = []) → Shaped os children →
      Shaped (⟨name, params, levels⟩ :: os) [.atRule name params properties children] := by
    intro properties children hproperties hchildren
    refine ⟨List.forall_mem_singleton.mpr (Css.Node.nestedAll_iff.mpr hchildren.nested), ?_⟩
    rw [Css.Node.atRulesAll, Css.Node.atRulesAll, List.append_nil]
    exact .cons ⟨rfl, rfl, hproperties⟩ hchildren.made
  rw [Yield.underAtRule]
  split
  · next hempty => exact hnode (fun _ => houtside (List.isEmpty_iff.mp hempty)) h
  · next hne =>
    exact hnode (absurd rfl) (h.underRule (by simpa using hne) fun t ht => (hfilled t ht).ne_nil)

end Shaped

/-- What is asked of the rules of a sheet: there are selectors, and each begins with no blank. -/
def Criterion.unindented : Criterion := .rules fun own => own ≠ [] ∧ ∀ t ∈ own, t.Unindented

/-- Whatever calls yield has the shape that the sites of the call give. -/
def Expansion.Shapes (calls : Expansion) : Prop := ∀ S levels c y, Scopes.Meet .unindented S → Css.Unindented levels →
  calls S (Css.combined levels) c = .ok y → ∃ os, Item.AtSites S levels (.call c) os ∧ Shaped os y.nodes

variable {calls : Expansion}

namespace Item

mutual

theorem yield_shaped (hcalls : calls.Shapes) {S : Scopes} {levels : List (List Text)} {i : Item} {y : Yield}
    (hi : i.Meets .unindented) (hS : S.Meet .unindented) (hlevels : Css.Unindented levels)
    (h : yield calls S (Css.combined levels) i = .ok y) : ∃ os, Item.AtSites S levels i os ∧ Shaped os y.nodes := by
  cases i with
  | declaration d =>
    obtain ⟨p, -, rfl⟩ := map_eq_ok h
    exact ⟨[], .declaration, .nil⟩
  | definition d =>
    obtain rfl := Except.ok.inj h
    exact ⟨[], .definition, .nil⟩
  | call c => exact hcalls S levels c y hS hlevels h
  | rule own body =>
    obtain ⟨z, hz, heq⟩ := bind_eq_ok h
    obtain rfl := Except.ok.inj heq
    rw [← Css.combined_concat] at hz ⊢
    have hinner : Css.Unindented (levels ++ [own]) :=
      List.forall_mem_append.mpr ⟨hlevels, List.forall_mem_singleton.mpr hi.1⟩
    obtain ⟨os, hos, hshaped⟩ := yieldAll_shaped hcalls hi.2 (hS.items hi.2) hinner hz
    obtain ⟨hfilled, houtside⟩ := hinner.combined
    exact ⟨os, .rule hos, hshaped.underRule (mt houtside (by simp)) fun t ht => (hfilled t ht).ne_nil⟩
  | atRule name params body =>
    obtain ⟨z, hz, heq⟩ := bind_eq_ok h
    obtain rfl := Except.ok.inj heq
    obtain ⟨os, hos, hshaped⟩ := yieldAll_shaped hcalls hi.2 (hS.items hi.2) hlevels hz
    exact ⟨_, .atRule hos, hshaped.underAtRule hlevels name params⟩
  | mixin name params body =>
    obtain rfl := Except.ok.inj h
    exact ⟨[], .mixin, .nil⟩

theorem yieldAll_shaped (hcalls : calls.Shapes) {S : Scopes} {levels : List (List Text)} {is : List Item} {y : Yield}
    (his : MeetsAll .unindented is) (hS : S.Meet .unindented) (hlevels : Css.Unindented levels)
    (h : yieldAll calls S (Css.combined levels) is = .ok y) :
    ∃ os, Item.AtSitesAll S levels is os ∧ Shaped os y.nodes := by
  cases is with
  | nil =>
    obtain rfl := Except.ok.inj h
    exact ⟨[], .nil, .nil⟩
  | cons i is =>
    obtain ⟨z, hz, hrest⟩ := bind_eq_ok h
    obtain ⟨w, hw, heq⟩ := bind_eq_ok hrest
    obtain rfl := Except.ok.inj heq
    obtain ⟨os, hos, hshaped⟩ := yield_shaped hcalls his.1 hS hlevels hz
    obtain ⟨os', hos', hshaped'⟩ := yieldAll_shaped hcalls his.2 hS hlevels hw
    exact ⟨os ++ os', .cons hos hos', hshaped.append hshaped'⟩

end

end Item

theorem Mixin.yieldAll_shaped (hcalls : calls.Shapes) {S : Scopes} (hS : S.Meet .unindented) {levels : List (List Text)}
    (hlevels : Css.Unindented levels) {args : List Value} {ms : List Mixin} {y : Yield}
    (hms : ∀ m ∈ ms, Item.MeetsAll .unindented m.body)
    (h : Mixin.yieldAll calls S (Css.combined levels) args ms = .ok y) :
    ∃ os, Mixin.AtSitesAll S levels args ms os ∧ Shaped os y.nodes := by
  induction ms generalizing y with
  | nil =>
    obtain rfl := Except.ok.inj h
    exact ⟨[], .nil, .nil⟩
  | cons m ms ih =>
    rw [List.forall_mem_cons] at hms
    obtain ⟨T, hT, hbody⟩ := bind_eq_ok h
    obtain ⟨z, hz, hrest⟩ := bind_eq_ok hbody
    obtain ⟨w, hw, heq⟩ := bind_eq_ok hrest
    obtain rfl := Except.ok.inj heq
    obtain ⟨os, hos, hshaped⟩ := Item.yieldAll_shaped hcalls hms.1 (hS.bodyScopes hms.1 hT) hlevels hz
    obtain ⟨os', hos', hshaped'⟩ := ih hms.2 hw
    exact ⟨os ++ os', .cons hT hos hos', hshaped.append hshaped'⟩

theorem expand_shaped (callable : List Text) : Expansion.Shapes (expand callable) := by
  -- on the names that may still be called
  induction hn : callable.length using Nat.strongRecOn generalizing callable with
  | ind n ih =>
    subst hn
    intro S levels c y hS hlevels h
    rw [expand_eq] at h
    split at h
    · exact nomatch h
    · split at h
      · exact nomatch h
      · next hc =>
        obtain ⟨args, hargs, h⟩ := bind_eq_ok h
        dsimp only at h
        split at h
        · exact nomatch h
        · obtain ⟨z, hz, heq⟩ := bind_eq_ok h
          obtain rfl := Except.ok.inj heq
          have hcalls := ih _ (without_length (not_not.mp hc)) (without c.name callable) rfl
          have hmixins : ∀ m ∈ (S.mixinsNamed c.name).filter (Mixin.accepts args.length),
              Item.MeetsAll .unindented m.body := fun m hm => hS.mixin (List.mem_filter.mp hm).1
          obtain ⟨os, hos, hshaped⟩ := Mixin.yieldAll_shaped hcalls hS hlevels hmixins hz
          -- the mark of the call leaves the nodes as they are
          refine ⟨os, .call hargs hos, ?_⟩
          split <;> exact hshaped

namespace Sheet

open Css.Node (atRulesAll)

theorem nodesOf_shaped (hcalls : calls.Shapes) {S : Scopes} (hS : S.Meet .unindented) {x : Statement}
    (hx : x.Meets .unindented) {ns : List Css.Node} (h : nodesOf calls S x = .ok ns) :
    ∃ os, Item.AtSitesAll S [] x.toItem?.toList os ∧ (∀ n ∈ ns, n.TopLevel) ∧
      List.Forall₂ AtSite.Makes os (atRulesAll ns) := by
  have hitem : ∀ {i : Item} {y : Yield}, i.Meets .unindented → i.yield calls S [] = .ok y →
      ∃ os, Item.AtSitesAll S [] [i] os ∧ (∀ n ∈ y.nodes, n.TopLevel) ∧
        List.Forall₂ AtSite.Makes os (atRulesAll y.nodes) := by
    intro i y hi hy
    have houtside : Css.Unindented [] := List.forall_mem_nil _
    obtain ⟨os, hos, hshaped⟩ := Item.yield_shaped hcalls hi hS houtside hy
    exact ⟨os ++ [], .cons hos .nil, fun n hn => .inl (hshaped.nested n hn), by rw [List.append_nil]; exact hshaped.made⟩
  cases x with
  | directive d =>
    obtain rfl := Except.ok.inj h
    exact ⟨[], .nil, List.forall_mem_singleton.mpr (.inr ⟨_, _, rfl⟩), .nil⟩
  | definition d =>
    obtain rfl := Except.ok.inj h
    exact ⟨_, .cons .definition .nil, List.forall_mem_nil _, .nil⟩
  | mixin name params body =>
    obtain rfl := Except.ok.inj h
    exact ⟨_, .cons .mixin .nil, List.forall_mem_nil _, .nil⟩
  | call c =>
    obtain ⟨y, hy, h⟩ := bind_eq_ok h
    split at h
    · obtain rfl := Except.ok.inj h
      exact hitem (i := .call c) hx hy
    · exact nomatch h
  | rule selectors body | atRule name params body =>
    obtain ⟨y, hy, rfl⟩ := map_eq_ok h
    exact hitem (hx.toItem rfl) hy

theorem evaluate_shaped {s : Sheet} (hs : ∀ x ∈ s, x.Meets .unindented) {ns : List Css.Node}
    (h : s.evaluate = .ok ns) :
    (∀ n ∈ ns, n.TopLevel) ∧ ∃ os, s.AtSites os ∧ List.Forall₂ AtSite.Makes os (atRulesAll ns) := by
  have hnone : Scopes.Meet .unindented [] := List.forall_mem_nil _
  have hS : Scopes.Meet .unindented [.ofItems s.items] := hnone.items (meetsAll_items hs)
  obtain ⟨parts, hparts, rfl⟩ := map_eq_ok h
  have hcalls := expand_shaped (Item.mixinNamesAll s.items)
  show _ ∧ ∃ os, Item.AtSitesAll [.ofItems s.items] [] s.items os ∧ _
  -- scopes and calls are those of the whole sheet while the induction takes away its statements
  generalize expand (Item.mixinNamesAll s.items) = calls at hparts hcalls
  generalize [Scope.ofItems s.items] = S at hparts hS ⊢
  clear h
  induction s generalizing parts with
  | nil =>
    obtain rfl := Except.ok.inj hparts
    exact ⟨List.forall_mem_nil _, [], .nil, .nil⟩
  | cons x s ih =>
    rw [List.forall_mem_cons] at hs
    obtain ⟨ns, others, hns, hothers, rfl⟩ := mapM_cons_eq_ok hparts
    obtain ⟨os, hos, htop, hmade⟩ := nodesOf_shaped hcalls hS hs.1 hns
    obtain ⟨htop', os', hos', hmade'⟩ := ih hs.2 others hothers
    have hitems : items (x :: s) = x.toItem?.toList ++ items s := by
      rw [items, List.filterMap_cons, items]
      cases x.toItem? <;> rfl
    rw [hitems, List.flatten_cons, Css.Node.atRulesAll_append]
    exact ⟨List.forall_mem_append.mpr ⟨htop, htop'⟩, os ++ os', hos.append hos', List.rel_append hmade hmade'⟩

/-- Every selector of a sheet that is read begins with the first token of its row. -/
theorem unindented_of_parse {source : Text} {s : Sheet} (h : parse source = .ok s) :
    ∀ x ∈ s, x.Meets .unindented := by
  refine meets_rules h fun selectors row hrow => ?_
  rw [hrow.texts]
  refine ⟨fun hnil => List.splitOnP_ne_nil _ _ (List.map_eq_nil_iff.mp hnil), List.forall_mem_map.mpr fun g hg => ?_⟩
  have hjoin := (hrow.isSelector hg).join
  have hfits := hrow.fits_group hg
  obtain ⟨t, ts, rfl⟩ := List.exists_cons_of_ne_nil (hrow.ne_nil g hg)
  have hmem := hrow.mem (Tokens.mem_of_mem_group hg List.mem_cons_self).1
  have hk : t.kind ≠ .eof := fun hk => by
    have hstop := (Written.inSelector_iff (hfits t List.mem_cons_self)).1
    simp [Tokens.isStop, hk] at hstop
  rw [hjoin, Token.words]
  exact (Token.unindented_of_mem hmem hk).append _

/-- What a sheet evaluates to has its shape. Every rule, at any depth, has declarations and selectors, and no selector is
empty. Directives stand only outside of at-rules. The at-rules are those at the sites of the sheet, in this order, and
one has declarations of its own only if there is no rule around its site. -/
theorem evaluate_shape {source : Text} {s : Sheet} {ns : List Css.Node} (hparse : parse source = .ok s)
    (h : s.evaluate = .ok ns) :
    (∀ n ∈ ns, n.TopLevel) ∧ ∃ os, s.AtSites os ∧ List.Forall₂ AtSite.Makes os (atRulesAll ns) :=
  evaluate_shaped (unindented_of_parse hparse) h

/-- At-rules in two rules and in a mixin that a rule calls have no declarations of their own, and one outside has. -/
theorem evaluate_shape_calls :
    let source := ".m() \x7b @media y \x7b c: d; \x7d \x7d .a \x7b @media x \x7b & .b \x7b .m(); \x7d \x7d \x7d @page \x7b e: f; \x7d @z;".toList
    ∃ s ns os, parse source = .ok s ∧ s.evaluate = .ok ns ∧
      (atRulesAll ns).map (fun r => (r.name, r.properties.length)) =
        [("media".toList, 0), ("media".toList, 0), ("page".toList, 1)] ∧
      (∀ n ∈ ns, n.TopLevel) ∧ s.AtSites os ∧ List.Forall₂ AtSite.Makes os (atRulesAll ns) := by
  intro source
  have hparsed : (parse source).toOption.any fun s => s.evaluate.toOption.any fun ns =>
      (atRulesAll ns).map (fun r => (r.name, r.properties.length)) =
        [("media".toList, 0), ("media".toList, 0), ("page".toList, 1)] := by
    decide +kernel
  obtain ⟨s, hs, hall⟩ := (Option.any_eq_true _ _).mp hparsed
  obtain ⟨ns, hns, hrules⟩ := (Option.any_eq_true _ _).mp hall
  have hparse := eq_ok_of_toOption hs
  have hevaluate := eq_ok_of_toOption hns
  obtain ⟨htop, os, hos, hmade⟩ := evaluate_shape hparse hevaluate
  exact ⟨s, ns, os, hparse, hevaluate, of_decide_eq_true hrules, htop, hos, hmade⟩

end Sheet
end LessCss
