import LessCss.Proofs.Css.Levels
import LessCss.Proofs.Css.ParentReferences
import LessCss.Proofs.Css.Sources
/-!
The selectors under which a declaration comes to stand.

A declaration stands in a chain of rules, and so does a call that leads to it. Each rule of the chain is a level, and
at-rules between them add none. What a sheet evaluates to has each declaration under the selectors of all its levels
(`Sheet.evaluate_emits`), and every chain of rules in a sheet leads to such a declaration (`evaluate_product`).
-/
namespace LessCss

/-- A declaration of a style sheet with the selectors that it stands under. -/
structure Css.Emission where
  selectors : List Text
  name : Text
  value : Text
deriving DecidableEq, Repr

namespace Css

def Property.emission (selectors : List Text) (p : Property) : Emission := ⟨selectors, p.name, p.value⟩

mutual

/-- The declarations in a node, each under the selectors of the rule that holds it. -/
def Node.emissions : Node → List Emission
  | .rule selectors properties => properties.map (·.emission selectors)
  | .atRule _ _ properties children => properties.map (·.emission []) ++ emissionsAll children
  | .directive .. => []

def Node.emissionsAll : List Node → List Emission
  | [] => []
  | n :: ns => n.emissions ++ emissionsAll ns

end

theorem Node.emissionsAll_append (ns ms : List Node) :
    emissionsAll (ns ++ ms) = emissionsAll ns ++ emissionsAll ms := by
  induction ns with
  | nil => rfl
  | cons n ns ih => rw [List.cons_append, emissionsAll, emissionsAll, ih, List.append_assoc]

end Css

namespace Yield

open Css.Node (emissionsAll)

/-- The declarations of a body in a rule with the given selectors. -/
def emissions (selectors : List Text) (y : Yield) : List Css.Emission :=
  y.properties.map (·.emission selectors) ++ emissionsAll y.nodes

variable {selectors : List Text} {y z : Yield}

theorem emissions_append : ((y ++ z).emissions selectors).Perm (y.emissions selectors ++ z.emissions selectors) := by
  have hparts : (y ++ z).emissions selectors =
      (y.properties.map (·.emission selectors) ++ z.properties.map (·.emission selectors)) ++
        (emissionsAll y.nodes ++ emissionsAll z.nodes) := by
    show (y.properties ++ z.properties).map _ ++ emissionsAll (y.nodes ++ z.nodes) = _
    rw [List.map_append, Css.Node.emissionsAll_append]
  rw [hparts, emissions, emissions]
  generalize y.properties.map (·.emission selectors) = own
  generalize z.properties.map (·.emission selectors) = other
  calc own ++ other ++ (emissionsAll y.nodes ++ emissionsAll z.nodes)
    _ = own ++ (other ++ emissionsAll y.nodes ++ emissionsAll z.nodes) := by simp only [List.append_assoc]
    List.Perm _ (own ++ (emissionsAll y.nodes ++ other ++ emissionsAll z.nodes)) :=
      (List.perm_append_comm.append_right _).append_left _
    _ = own ++ emissionsAll y.nodes ++ (other ++ emissionsAll z.nodes) := by simp only [List.append_assoc]

theorem emissions_underRule : emissionsAll (y.underRule selectors) = y.emissions selectors := by
  rw [underRule, Css.Node.emissionsAll_append]
  split
  · next hempty => rw [emissions, List.isEmpty_iff.mp hempty]; rfl
  · simp [emissions, emissionsAll, Css.Node.emissions]

theorem emissions_underAtRule (name params : Text) :
    (y.underAtRule name params selectors).emissions = y.emissions selectors := by
  rw [underAtRule]
  split
  · next hempty => rw [List.isEmpty_iff.mp hempty]; rfl
  · exact emissions_underRule

theorem emissions_important : y.important.emissions selectors = y.emissions selectors := by
  simp [emissions, important, Css.Property.emission]

theorem emissions_of_no_properties (h : y.properties = []) : y.emissions selectors = emissionsAll y.nodes := by
  rw [emissions, h]
  rfl

end Yield

/-- A declaration, the scopes in which it is evaluated, and the selectors of the rules around it from the outermost in.
The rules around a call come before those in the body of the mixin that is called. -/
structure Site where
  declaration : Declaration
  scopes : Scopes
  levels : List (List Text)

mutual

/-- The sites of the declarations in an item that stands in the scopes `S` and in rules with the selectors `levels`. -/
inductive Item.Sites : Scopes → List (List Text) → Item → List Site → Prop
  | declaration {S levels d} : Item.Sites S levels (.declaration d) [⟨d, S, levels⟩]
  | definition {S levels d} : Item.Sites S levels (.definition d) []
  | mixin {S levels name params body} : Item.Sites S levels (.mixin name params body) []
  | rule {S levels own body os} (h : Item.SitesAll (.ofItems body :: S) (levels ++ [own]) body os) :
      Item.Sites S levels (.rule own body) os
  | atRule {S levels name params body os} (h : Item.SitesAll (.ofItems body :: S) levels body os) :
      Item.Sites S levels (.atRule name params body) os
  | call {S levels c args os} (hargs : c.args.mapM S.evaluate = .ok args)
      (h : Mixin.SitesAll S levels args ((S.mixinsNamed c.name).filter (Mixin.accepts args.length)) os) :
      Item.Sites S levels (.call c) os

inductive Item.SitesAll : Scopes → List (List Text) → List Item → List Site → Prop
  | nil {S levels} : Item.SitesAll S levels [] []
  | cons {S levels i is os os'} (h : Item.Sites S levels i os) (hs : Item.SitesAll S levels is os') :
      Item.SitesAll S levels (i :: is) (os ++ os')

inductive Mixin.SitesAll : Scopes → List (List Text) → List Value → List Mixin → List Site → Prop
  | nil {S levels args} : Mixin.SitesAll S levels args [] []
  | cons {S levels args m ms T os os'} (hscopes : m.bodyScopes S args = .ok T)
      (h : Item.SitesAll T levels m.body os) (hs : Mixin.SitesAll S levels args ms os') :
      Mixin.SitesAll S levels args (m :: ms) (os ++ os')

end

/-- The sites of the declarations in a sheet. -/
def Sheet.Sites (s : Sheet) (os : List Site) : Prop := Item.SitesAll [.ofItems s.items] [] s.items os

/-- A declaration and the selectors of the rules that lead to it, from the outermost in. -/
structure Chain where
  levels : List (List Text)
  declaration : Declaration
deriving DecidableEq, Repr

namespace Item

mutual

/-- The chains of rules in an item, with any at-rules in between, to the declarations in the innermost rules. -/
def chains : Item → List Chain
  | .declaration d => [⟨[], d⟩]
  | .rule own body => (chainsAll body).map fun c => ⟨own :: c.levels, c.declaration⟩
  | .atRule _ _ body => chainsAll body
  | .definition _ => []
  | .mixin _ _ _ => []
  | .call _ => []

def chainsAll : List Item → List Chain
  | [] => []
  | i :: is => chains i ++ chainsAll is

end

end Item

def Sheet.chains (s : Sheet) : List Chain := Item.chainsAll s.items

namespace Item

theorem SitesAll.append {S : Scopes} {levels : List (List Text)} {is js : List Item} {os os' : List Site}
    (h : SitesAll S levels is os) (h' : SitesAll S levels js os') : SitesAll S levels (is ++ js) (os ++ os') := by
  induction is generalizing os with
  | nil =>
    cases h with
    | nil => exact h'
  | cons i is ih =>
    cases h with
    | cons hi his =>
      rw [List.append_assoc]
      exact .cons hi (ih his)

mutual

/-- The declaration at the end of a chain has a site. -/
theorem Sites.exists_site {c : Chain} {S : Scopes} {levels : List (List Text)} {i : Item} {os : List Site}
    (h : Sites S levels i os) (hc : c ∈ i.chains) :
    ∃ o ∈ os, o.declaration = c.declaration ∧ o.levels = levels ++ c.levels := by
  cases i with
  | definition | mixin | call => exact nomatch hc
  | declaration d =>
    obtain rfl := List.mem_singleton.mp hc
    cases h with
    | declaration => exact ⟨_, List.mem_singleton_self _, rfl, (List.append_nil levels).symm⟩
  | rule own body =>
    obtain ⟨inner, hinner, rfl⟩ := List.mem_map.mp hc
    cases h with
    | rule hbody =>
      obtain ⟨o, ho, hdeclaration, hlevels⟩ := SitesAll.exists_site hbody hinner
      exact ⟨o, ho, hdeclaration, hlevels.trans (List.append_assoc levels [own] inner.levels)⟩
  | atRule name params body =>
    cases h with
    | atRule hbody => exact SitesAll.exists_site hbody hc

theorem SitesAll.exists_site {c : Chain} {S : Scopes} {levels : List (List Text)} {is : List Item} {os : List Site}
    (h : SitesAll S levels is os) (hc : c ∈ chainsAll is) :
    ∃ o ∈ os, o.declaration = c.declaration ∧ o.levels = levels ++ c.levels := by
  cases is with
  | nil => exact nomatch hc
  | cons i is =>
    cases h with
    | cons hi his =>
      rcases List.mem_append.mp hc with hc | hc
      · obtain ⟨o, ho, hsite⟩ := Sites.exists_site hi hc
        exact ⟨o, List.mem_append_left _ ho, hsite⟩
      · obtain ⟨o, ho, hsite⟩ := SitesAll.exists_site his hc
        exact ⟨o, List.mem_append_right _ ho, hsite⟩

end

end Item

/-- The declaration of a site is emitted with its value, under the selectors of all its levels. -/
structure Site.Emits (o : Site) (e : Css.Emission) : Prop where
  name : e.name = o.declaration.name
  value : ∃ v, o.scopes.evaluate o.declaration.value = .ok v ∧ e.value = v.render
  selectors : e.selectors = Css.combined o.levels
  spelled : Css.Spelled o.levels

/-- There is one emission for each site, in some order. -/
def Emitted (os : List Site) (es : List Css.Emission) : Prop := ∃ fs, es.Perm fs ∧ List.Forall₂ Site.Emits os fs

theorem exists_of_forall₂ {α β : Type} {R : α → β → Prop} {as : List α} {bs : List β} (h : List.Forall₂ R as bs) {a : α}
    (ha : a ∈ as) : ∃ b ∈ bs, R a b := by
  induction h with
  | nil => exact nomatch ha
  | cons hab _ ih =>
    rcases List.mem_cons.mp ha with rfl | ha
    · exact ⟨_, List.mem_cons_self, hab⟩
    · obtain ⟨b, hb, hr⟩ := ih ha
      exact ⟨b, List.mem_cons_of_mem _ hb, hr⟩

namespace Emitted

variable {os os' : List Site} {es es' : List Css.Emission}

theorem nil : Emitted [] [] := ⟨[], .refl _, .nil⟩

theorem append (h : Emitted os es) (h' : Emitted os' es') : Emitted (os ++ os') (es ++ es') := by
  obtain ⟨fs, hperm, hemits⟩ := h
  obtain ⟨fs', hperm', hemits'⟩ := h'
  exact ⟨fs ++ fs', hperm.append hperm', List.rel_append hemits hemits'⟩

theorem perm (h : Emitted os es) (hperm : es'.Perm es) : Emitted os es' := by
  obtain ⟨fs, hfs, hemits⟩ := h
  exact ⟨fs, hperm.trans hfs, hemits⟩

end Emitted

/-- What is asked of the rules of a sheet: there are selectors, and none is empty. -/
def Criterion.spelled : Criterion := .rules fun own => own ≠ [] ∧ ∀ t ∈ own, t ≠ []

/-- Whatever calls yield has been emitted for the sites of the call. -/
def Expansion.Emits (calls : Expansion) : Prop := ∀ S levels c y, Scopes.Meet .spelled S → Css.Spelled levels →
  calls S (Css.combined levels) c = .ok y →
    ∃ os, Item.Sites S levels (.call c) os ∧ Emitted os (y.emissions (Css.combined levels))

variable {calls : Expansion}

namespace Item

mutual

/-- What an item yields is emitted for its sites, whatever levels stand around it. -/
theorem yield_emits (hcalls : calls.Emits) {S : Scopes} {levels : List (List Text)} {i : Item} {y : Yield}
    (hi : i.Meets .spelled) (hS : S.Meet .spelled) (hlevels : Css.Spelled levels)
    (h : yield calls S (Css.combined levels) i = .ok y) :
    ∃ os, Item.Sites S levels i os ∧ Emitted os (y.emissions (Css.combined levels)) := by
  cases i with
  | declaration d =>
    obtain ⟨p, hp, rfl⟩ := map_eq_ok h
    obtain ⟨v, hv, rfl⟩ := map_eq_ok hp
    exact ⟨_, .declaration, _, .refl _, .cons ⟨rfl, ⟨v, hv, rfl⟩, rfl, hlevels⟩ .nil⟩
  | definition d =>
    obtain rfl := Except.ok.inj h
    exact ⟨[], .definition, .nil⟩
  | call c => exact hcalls S levels c y hS hlevels h
  | rule own body =>
    obtain ⟨z, hz, heq⟩ := bind_eq_ok h
    obtain rfl := Except.ok.inj heq
    rw [← Css.combined_concat] at hz ⊢
    have hinner : Css.Spelled (levels ++ [own]) :=
      List.forall_mem_append.mpr ⟨hlevels, List.forall_mem_singleton.mpr hi.1⟩
    obtain ⟨os, hos, hemitted⟩ := yieldAll_emits hcalls hi.2 (hS.items hi.2) hinner hz
    refine ⟨os, .rule hos, ?_⟩
    rw [Yield.emissions_of_no_properties rfl, Yield.emissions_underRule]
    exact hemitted
  | atRule name params body =>
    obtain ⟨z, hz, heq⟩ := bind_eq_ok h
    obtain rfl := Except.ok.inj heq
    obtain ⟨os, hos, hemitted⟩ := yieldAll_emits hcalls hi.2 (hS.items hi.2) hlevels hz
    refine ⟨os, .atRule hos, ?_⟩
    rw [Yield.emissions_of_no_properties rfl, Css.Node.emissionsAll, Css.Node.emissionsAll, List.append_nil,
      Yield.emissions_underAtRule]
    exact hemitted
  | mixin name params body =>
    obtain rfl := Except.ok.inj h
    exact ⟨[], .mixin, .nil⟩

theorem yieldAll_emits (hcalls : calls.Emits) {S : Scopes} {levels : List (List Text)} {is : List Item} {y : Yield}
    (his : MeetsAll .spelled is) (hS : S.Meet .spelled) (hlevels : Css.Spelled levels)
    (h : yieldAll calls S (Css.combined levels) is = .ok y) :
    ∃ os, Item.SitesAll S levels is os ∧ Emitted os (y.emissions (Css.combined levels)) := by
  cases is with
  | nil =>
    obtain rfl := Except.ok.inj h
    exact ⟨[], .nil, .nil⟩
  | cons i is =>
    obtain ⟨z, hz, hrest⟩ := bind_eq_ok h
    obtain ⟨w, hw, heq⟩ := bind_eq_ok hrest
    obtain rfl := Except.ok.inj heq
    obtain ⟨os, hos, hemitted⟩ := yield_emits hcalls his.1 hS hlevels hz
    obtain ⟨os', hos', hemitted'⟩ := yieldAll_emits hcalls his.2 hS hlevels hw
    exact ⟨os ++ os', .cons hos hos', (hemitted.append hemitted').perm Yield.emissions_append⟩

end

end Item

theorem Mixin.yieldAll_emits (hcalls : calls.Emits) {S : Scopes} (hS : S.Meet .spelled) {levels : List (List Text)}
    (hlevels : Css.Spelled levels) {args : List Value} {ms : List Mixin} {y : Yield}
    (hms : ∀ m ∈ ms, Item.MeetsAll .spelled m.body)
    (h : Mixin.yieldAll calls S (Css.combined levels) args ms = .ok y) :
    ∃ os, Mixin.SitesAll S levels args ms os ∧ Emitted os (y.emissions (Css.combined levels)) := by
  induction ms generalizing y with
  | nil =>
    obtain rfl := Except.ok.inj h
    exact ⟨[], .nil, .nil⟩
  | cons m ms ih =>
    rw [List.forall_mem_cons] at hms
    obtain ⟨T, hT, hbody⟩ := bind_eq_ok h
    obtain ⟨z, hz, hrest⟩ := bind_eq_ok hbody
    obtain ⟨w, hw, heq⟩ := bind_eq_ok hrest
    obtain rfl := Except.ok.inj heq
    obtain ⟨os, hos, hemitted⟩ := Item.yieldAll_emits hcalls hms.1 (hS.bodyScopes hms.1 hT) hlevels hz
    obtain ⟨os', hos', hemitted'⟩ := ih hms.2 hw
    exact ⟨os ++ os', .cons hT hos hos', (hemitted.append hemitted').perm Yield.emissions_append⟩

/-- Calls, by induction on the names that may still be called. -/
theorem expand_emits (callable : List Text) : Expansion.Emits (expand callable) := by
  induction hn : callable.length using Nat.strongRecOn generalizing callable with
  | ind n ih =>
    subst hn
    intro S levels c y hS hlevels h
    rw [expand_eq] at h
    split at h
    · exact nomatch h
    · split at h
      · exact nomatch h
      · next hc =>
        obtain ⟨args, hargs, h⟩ := bind_eq_ok h
        dsimp only at h
        split at h
        · exact nomatch h
        · obtain ⟨z, hz, heq⟩ := bind_eq_ok h
          obtain rfl := Except.ok.inj heq
          have hcalls := ih _ (without_length (not_not.mp hc)) (without c.name callable) rfl
          have hmixins : ∀ m ∈ (S.mixinsNamed c.name).filter (Mixin.accepts args.length),
              Item.MeetsAll .spelled m.body := fun m hm => hS.mixin (List.mem_filter.mp hm).1
          obtain ⟨os, hos, hemitted⟩ := Mixin.yieldAll_emits hcalls hS hlevels hmixins hz
          refine ⟨os, .call hargs hos, ?_⟩
          split
          · rw [Yield.emissions_important]
            exact hemitted
          · exact hemitted

namespace Sheet

open Css.Node (emissionsAll)

theorem nodesOf_emits (hcalls : calls.Emits) {S : Scopes} (hS : S.Meet .spelled) {x : Statement}
    (hx : x.Meets .spelled) {ns : List Css.Node} (h : nodesOf calls S x = .ok ns) :
    ∃ os, Item.SitesAll S [] x.toItem?.toList os ∧ Emitted os (emissionsAll ns) := by
  have hitem : ∀ {i : Item} {y : Yield}, i.Meets .spelled → i.yield calls S [] = .ok y → y.properties = [] →
      ∃ os, Item.SitesAll S [] [i] os ∧ Emitted os (emissionsAll y.nodes) := by
    intro i y hi hy hnone
    have houtside : Css.Spelled [] := List.forall_mem_nil _
    obtain ⟨os, hos, hemitted⟩ := Item.yield_emits hcalls hi hS houtside hy
    rw [Yield.emissions_of_no_properties hnone] at hemitted
    exact ⟨os ++ [], .cons hos .nil, by rwa [List.append_nil]⟩
  cases x with
  | directive d =>
    obtain rfl := Except.ok.inj h
    exact ⟨[], .nil, .nil⟩
  | definition d =>
    obtain rfl := Except.ok.inj h
    exact ⟨_, .cons .definition .nil, .nil⟩
  | mixin name params body =>
    obtain rfl := Except.ok.inj h
    exact ⟨_, .cons .mixin .nil, .nil⟩
  | call c =>
    obtain ⟨y, hy, h⟩ := bind_eq_ok h
    split at h
    · next hempty =>
      obtain rfl := Except.ok.inj h
      exact hitem (i := .call c) hx hy (List.isEmpty_iff.mp hempty)
    · exact nomatch h
  | rule selectors body | atRule name params body =>
    obtain ⟨y, hy, rfl⟩ := map_eq_ok h
    obtain ⟨z, -, heq⟩ := bind_eq_ok hy
    obtain rfl := Except.ok.inj heq
    exact hitem (hx.toItem rfl) hy rfl

/-- A style sheet has one declaration for each site of the sheet. -/
theorem evaluate_emits {s : Sheet} (hs : ∀ x ∈ s, x.Meets .spelled) {ns : List Css.Node} (h : s.evaluate = .ok ns) :
    ∃ os, s.Sites os ∧ Emitted os (emissionsAll ns) := by
  have hnone : Scopes.Meet .spelled [] := List.forall_mem_nil _
  have hS : Scopes.Meet .spelled [.ofItems s.items] := hnone.items (meetsAll_items hs)
  obtain ⟨parts, hparts, rfl⟩ := map_eq_ok h
  have hcalls := expand_emits (Item.mixinNamesAll s.items)
  show ∃ os, Item.SitesAll [.ofItems s.items] [] s.items os ∧ _
  -- scopes and calls are those of the whole sheet while the induction takes away its statements
  generalize expand (Item.mixinNamesAll s.items) = calls at hparts hcalls
  generalize [Scope.ofItems s.items] = S at hparts hS ⊢
  clear h
  induction s generalizing parts with
  | nil =>
    obtain rfl := Except.ok.inj hparts
    exact ⟨[], .nil, .nil⟩
  | cons x s ih =>
    rw [List.forall_mem_cons] at hs
    obtain ⟨ns, others, hns, hothers, rfl⟩ := mapM_cons_eq_ok hparts
    obtain ⟨os, hos, hemitted⟩ := nodesOf_emits hcalls hS hs.1 hns
    obtain ⟨os', hos', hemitted'⟩ := ih hs.2 others hothers
    have hitems : items (x :: s) = x.toItem?.toList ++ items s := by
      rw [items, List.filterMap_cons, items]
      cases x.toItem? <;> rfl
    rw [hitems, List.flatten_cons, Css.Node.emissionsAll_append]
    exact ⟨os ++ os', hos.append hos', hemitted.append hemitted'⟩

theorem spelled_of_parse {source : Text} {s : Sheet} (h : parse source = .ok s) : ∀ x ∈ s, x.Meets .spelled := by
  refine meets_rules h fun selectors row hrow => ?_
  rw [hrow.texts]
  refine ⟨fun hnil => List.splitOnP_ne_nil _ _ (List.map_eq_nil_iff.mp hnil), List.forall_mem_map.mpr fun g hg => ?_⟩
  have hselector := hrow.isSelector hg
  obtain ⟨t, ts, rfl⟩ := List.exists_cons_of_ne_nil (hrow.ne_nil g hg)
  rw [hselector.join, Token.words]
  exact List.append_ne_nil_of_left_ne_nil (hselector.lexemes t List.mem_cons_self).text_ne_nil _

end Sheet

/-- Each declaration of a sheet is emitted once for each site that it has, under the selectors of all rules around the
site, and every chain of rules ends in a site. If no selector of these rules has an `&` or a blank at its ends, there is
one selector for each choice of one from every rule: the chosen ones from the outermost in with single spaces between
them, in lexicographic order. -/
theorem evaluate_product {source : Text} {s : Sheet} {ns : List Css.Node} (hparse : parse source = .ok s)
    (h : s.evaluate = .ok ns) : ∃ os es, s.Sites os ∧ (Css.Node.emissionsAll ns).Perm es ∧
      List.Forall₂ (fun o e => o.Emits e ∧ (o.levels ≠ [] → (∀ own ∈ o.levels, ∀ t ∈ own, Css.Standalone t) →
        Css.IsProduct o.levels e.selectors)) os es ∧
      ∀ c ∈ s.chains, ∃ o ∈ os, o.declaration = c.declaration ∧ o.levels = c.levels := by
  obtain ⟨os, hos, es, hperm, hemits⟩ := Sheet.evaluate_emits (Sheet.spelled_of_parse hparse) h
  refine ⟨os, es, hos, hperm, hemits.imp fun o e he => ⟨he, fun hne hlevels => ?_⟩, fun c hc => hos.exists_site hc⟩
  rw [he.selectors]
  exact Css.isProduct_combined hne he.spelled hlevels

/-- Two rules with two selectors each and an at-rule between them. -/
theorem evaluate_product_media :
    let levels := [[".a".toList, ".b".toList], [".c".toList, ".d".toList]]
    ∃ s ns, parse ".a, .b \x7b @media x \x7b .c, .d \x7b e: f; \x7d \x7d \x7d".toList = .ok s ∧ s.evaluate = .ok ns ∧
      s.chains.map (·.levels) = [levels] ∧ ∃ (o : Site) (e : Css.Emission), e ∈ Css.Node.emissionsAll ns ∧ o.Emits e ∧
        o.levels = levels ∧ Css.IsProduct levels e.selectors := by
  intro levels
  have hparsed : (parse ".a, .b \x7b @media x \x7b .c, .d \x7b e: f; \x7d \x7d \x7d".toList).toOption.any fun s =>
      s.chains.map (·.levels) = [levels] ∧ s.evaluate.toOption.isSome := by
    decide +kernel
  obtain ⟨s, hs, hall⟩ := (Option.any_eq_true _ _).mp hparsed
  obtain ⟨hchains, hsome⟩ := of_decide_eq_true hall
  obtain ⟨ns, hns⟩ := Option.isSome_iff_exists.mp hsome
  have hparse := eq_ok_of_toOption hs
  have hevaluate := eq_ok_of_toOption hns
  obtain ⟨os, es, -, hperm, hemits, hsites⟩ := evaluate_product hparse hevaluate
  have hmem : levels ∈ s.chains.map (·.levels) := by
    rw [hchains]
    exact List.mem_singleton_self levels
  obtain ⟨c, hc, hlevels⟩ := List.mem_map.mp hmem
  obtain ⟨o, ho, -, hsite⟩ := hsites c hc
  obtain ⟨e, he, hemits, hproduct⟩ := exists_of_forall₂ hemits ho
  rw [hsite, hlevels] at hproduct
  have hstandalone : ∀ own ∈ levels, ∀ t ∈ own, Css.Standalone t := by decide
  exact ⟨s, ns, hparse, hevaluate, hchains, o, e, hperm.mem_iff.mpr he, hemits, hsite.trans hlevels,
    hproduct (List.cons_ne_nil _ _) hstandalone⟩

example : (evaluate ".a, .b \x7b @media x \x7b .c, .d \x7b e: f; \x7d \x7d \x7d".toList).toOption.map
    Css.Node.emissionsAll =
      some [⟨[".a .c".toList, ".a .d".toList, ".b .c".toList, ".b .d".toList], "e".toList, "f".toList⟩] := by
  decide +kernel

end LessCss
