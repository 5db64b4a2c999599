import LessCss.Proofs.Css.MachineRun
import LessCss.Proofs.Css.Parameters
/-!
What marking a call important changes.

A declaration that a call contributes comes from the body of a mixin, through a chain of calls (`Origin`). It is
important if it is marked in the source, or if a call of the chain is (`Origin.Gives`). The mark of a call changes
nothing else (`Machine.runs_call_important`).
-/
namespace LessCss

/-- Where a property comes from: a declaration, the scopes in which it is evaluated, and the calls that lead to it. -/
structure Origin where
  declaration : Declaration
  scopes : Scopes
  calls : List Call

namespace Origin

def through (c : Call) (o : Origin) : Origin := { o with calls := c :: o.calls }

/-- The property of a declaration is important if the declaration is or if a call is that leads to it. -/
structure Gives (o : Origin) (p : Css.Property) : Prop where
  evaluates : o.declaration.evaluate o.scopes = .ok { p with important := o.declaration.important }
  important : p.important = (o.declaration.important || o.calls.any (·.important))

end Origin

mutual

/-- The declarations that an item contributes in the scopes `S`. Those inside of nodes are not among them. -/
inductive Item.Contributes : Scopes → Item → List Origin → Prop
  | declaration {S d} : Item.Contributes S (.declaration d) [⟨d, S, []⟩]
  | definition {S d} : Item.Contributes S (.definition d) []
  | mixin {S name params body} : Item.Contributes S (.mixin name params body) []
  | rule {S own body} : Item.Contributes S (.rule own body) []
  | atRule {S name params body} : Item.Contributes S (.atRule name params body) []
  | call {S c args os} (hargs : c.args.mapM S.evaluate = .ok args)
    (h : Mixin.ContributesAll S args ((S.mixinsNamed c.name).filter (Mixin.accepts args.length)) os) :
    Item.Contributes S (.call c) (os.map (.through c))

inductive Item.ContributesAll : Scopes → List Item → List Origin → Prop
  | nil {S} : Item.ContributesAll S [] []
  | cons {S i is os os'} (h : Item.Contributes S i os) (hs : Item.ContributesAll S is os') :
    Item.ContributesAll S (i :: is) (os ++ os')

inductive Mixin.ContributesAll : Scopes → List Value → List Mixin → List Origin → Prop
  | nil {S args} : Mixin.ContributesAll S args [] []
  | cons {S args m ms T os os'} (hscopes : m.bodyScopes S args = .ok T) (h : Item.ContributesAll T m.body os)
    (hs : Mixin.ContributesAll S args ms os') : Mixin.ContributesAll S args (m :: ms) (os ++ os')

end

def Traced (calls : Expansion) : Prop := ∀ S selectors c y, calls S selectors c = .ok y →
  ∃ os, Item.Contributes S (.call c) os ∧ List.Forall₂ Origin.Gives os y.properties

variable {calls : Expansion} {S : Scopes} {selectors : List Text} {y : Yield}

namespace Item

theorem traced (hcalls : Traced calls) {i : Item} (h : i.yield calls S selectors = .ok y) :
    ∃ os, i.Contributes S os ∧ List.Forall₂ Origin.Gives os y.properties := by
  cases i with
  | declaration d =>
    obtain ⟨p, hp, rfl⟩ := map_eq_ok h
    obtain ⟨v, -, rfl⟩ := map_eq_ok hp
    exact ⟨_, .declaration, .cons ⟨hp, (Bool.or_false _).symm⟩ .nil⟩
  | definition d =>
    obtain rfl := Except.ok.inj h
    exact ⟨[], .definition, .nil⟩
  | mixin name params body =>
    obtain rfl := Except.ok.inj h
    exact ⟨[], .mixin, .nil⟩
  | rule own body =>
    obtain ⟨z, -, hz⟩ := bind_eq_ok h
    obtain rfl := Except.ok.inj hz
    exact ⟨[], .rule, .nil⟩
  | atRule name params body =>
    obtain ⟨z, -, hz⟩ := bind_eq_ok h
    obtain rfl := Except.ok.inj hz
    exact ⟨[], .atRule, .nil⟩
  | call c => exact hcalls S selectors c y h

theorem tracedAll (hcalls : Traced calls) {is : List Item} (h : Item.yieldAll calls S selectors is = .ok y) :
    ∃ os, ContributesAll S is os ∧ List.Forall₂ Origin.Gives os y.properties := by
  induction is generalizing y with
  | nil =>
    obtain rfl := Except.ok.inj h
    exact ⟨[], .nil, .nil⟩
  | cons i is ih =>
    obtain ⟨z, hz, hrest⟩ := bind_eq_ok h
    obtain ⟨zs, hzs, heq⟩ := bind_eq_ok hrest
    obtain rfl := Except.ok.inj heq
    obtain ⟨os, hos, hgives⟩ := traced hcalls hz
    obtain ⟨os', hos', hgives'⟩ := ih hzs
    exact ⟨os ++ os', .cons hos hos', List.rel_append hgives hgives'⟩

end Item

theorem Mixin.tracedAll (hcalls : Traced calls) {args : List Value} {ms : List Mixin}
    (h : Mixin.yieldAll calls S selectors args ms = .ok y) :
    ∃ os, Mixin.ContributesAll S args ms os ∧ List.Forall₂ Origin.Gives os y.properties := by
  induction ms generalizing y with
  | nil =>
    obtain rfl := Except.ok.inj h
    exact ⟨[], .nil, .nil⟩
  | cons m ms ih =>
    obtain ⟨T, hT, hbody⟩ := bind_eq_ok h
    obtain ⟨z, hz, hrest⟩ := bind_eq_ok hbody
    obtain ⟨zs, hzs, heq⟩ := bind_eq_ok hrest
    obtain rfl := Except.ok.inj heq
    obtain ⟨os, hos, hgives⟩ := Item.tracedAll hcalls hz
    obtain ⟨os', hos', hgives'⟩ := ih hzs
    exact ⟨os ++ os', .cons hT hos hos', List.rel_append hgives hgives'⟩

namespace Origin.Gives

variable {o : Origin} {p : Css.Property} {c : Call}

theorem through_important (h : o.Gives p) (hc : c.important = true) :
    (o.through c).Gives { p with important := true } where
  evaluates := h.evaluates
  important := by simp [through, hc]

theorem through_plain (h : o.Gives p) (hc : c.important = false) : (o.through c).Gives p where
  evaluates := h.evaluates
  important := by simpa [through, hc] using h.important

end Origin.Gives

/-- What a call yields comes from declarations, by induction on the names that may still be called. -/
theorem traced_expand (callable : List Text) : Traced (expand callable) := by
  induction hn : callable.length using Nat.strongRecOn generalizing callable with
  | ind n ih =>
    intro S selectors c y h
    rw [expand_eq] at h
    split at h
    · exact nomatch h
    · split at h
      · exact nomatch h
      · next hc =>
        have hcalls := ih _ (hn ▸ without_length (not_not.mp hc)) (without c.name callable) rfl
        obtain ⟨args, hargs, h⟩ := bind_eq_ok h
        dsimp only at h
        split at h
        · exact nomatch h
        · obtain ⟨z, hz, heq⟩ := bind_eq_ok h
          obtain rfl := Except.ok.inj heq
          obtain ⟨os, hos, hgives⟩ := Mixin.tracedAll hcalls hz
          refine ⟨os.map (.through c), .call hargs hos, ?_⟩
          rw [List.forall₂_map_left_iff]
          split
          · next himportant =>
            exact List.forall₂_map_right_iff.mpr (hgives.imp fun o p hop => hop.through_important himportant)
          · next hplain => exact hgives.imp fun o p hop => hop.through_plain (by simpa using hplain)

/-- The mark of a call adds a mark to each property that the call yields, and nothing else. -/
theorem expand_important (callable : List Text) (S : Scopes) (selectors : List Text) (c : Call) :
    expand callable S selectors { c with important := true } =
      (expand callable S selectors { c with important := false }).map Yield.important := by
  rw [expand_eq, expand_eq]
  split
  · rfl
  · split
    · rfl
    · cases c.args.mapM S.evaluate with
      | error d => rfl
      | ok args =>
        rw [ok_bind, ok_bind]
        dsimp only
        split
        · rfl
        · cases Mixin.yieldAll (expand (without c.name callable)) S selectors args
            ((S.mixinsNamed c.name).filter (Mixin.accepts args.length)) <;> rfl

namespace Machine

open Guards (Frame run)

variable {X : List Text}

/-- While no definition is being resolved, the machine adds to what it has collected what the call yields. -/
theorem runs_call_expand {names : List Text} {c : Call} (h : Frame.Within names ⟨S, X, [], .item selectors (.call c)⟩)
    (collected : Yield) :
    Runs (.of S X []) (enter (.call selectors c collected))
      ((expand (Guards.unguarded X names) S selectors c).map fun y => (.of S X [], collected ++ y)) := by
  have hruns : Runs (.of S X []) (enter (.call selectors c collected)) _ :=
    runs_call (fun value _ => agrees ⟨_, _, _, .tokens _ value⟩) (fun _ args m _ => agrees ⟨_, _, _, .mixin _ args m⟩)
      collected
  rw [Guards.run_eq_meaning h rfl] at hruns
  exact hruns

/-- The mark of a call in any scopes, whatever mixins are being expanded. With it and without it the machine comes to
the same diagnostic, or it adds the same properties and nodes to what has been collected, but for the marks of the
properties that it adds. With the mark all of these are important. Without it those are that are marked in the source,
or that a marked call leads to. -/
theorem runs_call_important (S : Scopes) (X : List Text) (selectors : List Text) (c : Call) (collected : Yield) :
    ∃ e : Except Diagnostic Yield,
      Runs (.of S X []) (enter (.call selectors { c with important := false } collected))
        (e.map fun y => (.of S X [], ⟨collected.properties ++ y.properties, collected.nodes ++ y.nodes⟩)) ∧
      Runs (.of S X []) (enter (.call selectors { c with important := true } collected))
        (e.map fun y => (.of S X [], ⟨collected.properties ++ y.properties.map fun p => { p with important := true },
          collected.nodes ++ y.nodes⟩)) ∧
      ∀ y, e = .ok y → ∃ os, Item.Contributes S (.call { c with important := false }) os ∧
        List.Forall₂ Origin.Gives os y.properties := by
  obtain ⟨names, hwithin⟩ := Guards.exists_within ⟨S, X, [], .item selectors (.call { c with important := false })⟩
  have hmarked : Frame.Within names ⟨S, X, [], .item selectors (.call { c with important := true })⟩ :=
    ⟨hwithin.scopes, hwithin.task⟩
  refine ⟨expand (Guards.unguarded X names) S selectors { c with important := false }, ?_, ?_, ?_⟩
  · exact runs_call_expand hwithin collected
  · have hruns := runs_call_expand hmarked collected
    rw [expand_important, map_map] at hruns
    exact hruns
  · exact fun y hy => traced_expand _ S selectors _ y hy

/-- A marked call in a mixin leaves the other declarations of that mixin as they are. -/
example :
    let word (text : String) : List Token := [⟨.ident, text.toList, ⟨1, 1⟩, true⟩]
    let s : Sheet := [.rule [".m".toList] [.declaration ⟨"color".toList, word "red", false⟩],
      .rule [".n".toList] [.declaration ⟨"margin".toList, word "auto", false⟩, .call ⟨".m".toList, [], true, ⟨2, 20⟩⟩],
      .rule ["b".toList] [.call ⟨".n".toList, [], false, ⟨3, 5⟩⟩]]
    (s.evaluate.map fun nodes => nodes.map fun
      | .rule _ properties => properties.map (·.important)
      | _ => []).toOption = some [[false], [false, true], [false, true]] := by
  decide +kernel

end Machine
end LessCss
