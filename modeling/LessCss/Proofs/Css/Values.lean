import LessCss.Css.Evaluation
/-!
Sheets with other values.

`Sheet.mapValues f` has `f v` where the sheet has a value `v`: in declarations, in definitions of variables, as
arguments of calls and for parameters that a call leaves out. The scopes of the new sheet are those of the old one
with other values.
-/
namespace LessCss

variable (f : List Token → List Token)

def Declaration.mapValue (d : Declaration) : Declaration := { d with value := f d.value }

def Definition.mapValue (d : Definition) : Definition := { d with value := f d.value }

def Call.mapValues (c : Call) : Call := { c with args := c.args.map f }

def Parameter.mapValue (p : Parameter) : Parameter := { p with fallback := p.fallback.map f }

namespace Item

mutual

def mapValues : Item → Item
  | .declaration d => .declaration (d.mapValue f)
  | .definition d => .definition (d.mapValue f)
  | .call c => .call (c.mapValues f)
  | .rule selectors body => .rule selectors (mapValuesAll body)
  | .atRule name params body => .atRule name params (mapValuesAll body)
  | .mixin name params body => .mixin name (params.map (Parameter.mapValue f)) (mapValuesAll body)

def mapValuesAll : List Item → List Item
  | [] => []
  | i :: is => mapValues i :: mapValuesAll is

end

theorem mapValuesAll_eq_map (is : List Item) : mapValuesAll f is = is.map (mapValues f) := by
  induction is with
  | nil => rfl
  | cons i is ih => rw [mapValuesAll, ih, List.map_cons]

end Item

def Statement.mapValues : Statement → Statement
  | .directive d => .directive d
  | .definition d => .definition (d.mapValue f)
  | .call c => .call (c.mapValues f)
  | .rule selectors body => .rule selectors (Item.mapValuesAll f body)
  | .atRule name params body => .atRule name params (Item.mapValuesAll f body)
  | .mixin name params body => .mixin name (params.map (Parameter.mapValue f)) (Item.mapValuesAll f body)

/-- The sheet with every value changed. -/
def Sheet.mapValues (s : Sheet) : Sheet := s.map (Statement.mapValues f)

theorem Sheet.items_mapValues (s : Sheet) : Sheet.items (s.mapValues f) = Item.mapValuesAll f s.items := by
  unfold Sheet.items Sheet.mapValues
  rw [Item.mapValuesAll_eq_map, List.filterMap_map, List.map_filterMap]
  congr 1
  funext x
  cases x <;> rfl

namespace Item

theorem mixin?_mapValues (i : Item) : (Scope.mixin? (mapValues f i)).map (·.1) = (Scope.mixin? i).map (·.1) := by
  cases i with
  | rule selectors body =>
    rcases selectors with _ | ⟨selector, _ | ⟨second, others⟩⟩
    · rfl
    · cases h : Scope.isCallable selector <;> simp [mapValues, Scope.mixin?, h]
    · rfl
  | declaration | definition | call | atRule | mixin => rfl

mutual

theorem mixinNames_mapValues (i : Item) : mixinNames (mapValues f i) = mixinNames i := by
  have hname := mixin?_mapValues f i
  cases i with
  | declaration | definition | call => rfl
  | rule | atRule | mixin =>
    rw [mapValues] at hname ⊢
    rw [mixinNames, mixinNames, hname, mixinNamesAll_mapValues]

theorem mixinNamesAll_mapValues (is : List Item) : mixinNamesAll (mapValuesAll f is) = mixinNamesAll is := by
  cases is with
  | nil => rfl
  | cons i is =>
    rw [mapValuesAll, mixinNamesAll, mixinNamesAll, mixinNames_mapValues i, mixinNamesAll_mapValues is]

end

end Item

def Binding.mapValue : Binding → Binding
  | deferred value => deferred (f value)
  | b => b

namespace Mixin

def mapValues : Mixin → Mixin
  | plain body => plain (Item.mapValuesAll f body)
  | parametric params body => parametric (params.map (Parameter.mapValue f)) (Item.mapValuesAll f body)

theorem accepts_mapValues (count : Nat) (m : Mixin) : (m.mapValues f).accepts count = m.accepts count := by
  cases m with
  | plain body => rfl
  | parametric params body => simp [mapValues, accepts, ← List.map_drop, Function.comp_def, Parameter.mapValue]

end Mixin

namespace Scope

def mapValues (s : Scope) : Scope :=
  ⟨s.bindings.map (Prod.map id (Binding.mapValue f)), s.mixins.map (Prod.map id (Mixin.mapValues f))⟩

theorem find?_mapValues (name : Text) (bs : List (Text × Binding)) :
    find? name (bs.map (Prod.map id (Binding.mapValue f))) =
      (find? name bs).map (Prod.map (Binding.mapValue f) (List.map (Prod.map id (Binding.mapValue f)))) := by
  induction bs with
  | nil => rfl
  | cons b bs ih =>
    obtain ⟨n, b⟩ := b
    rw [List.map_cons, Prod.map_apply, id_eq, find?, find?, ih]
    split
    · rfl
    · rw [Option.map_map, Option.map_map]
      rfl

theorem ofItems_mapValues (is : List Item) : ofItems (Item.mapValuesAll f is) = (ofItems is).mapValues f := by
  have hb : ∀ i : Item, binding? (Item.mapValues f i) = (binding? i).map (Prod.map id (Binding.mapValue f)) := by
    intro i
    cases i <;> rfl
  have hm : ∀ i : Item, mixin? (Item.mapValues f i) = (mixin? i).map (Prod.map id (Mixin.mapValues f)) := by
    intro i
    cases i with
    | rule selectors body =>
      rcases selectors with _ | ⟨selector, _ | ⟨second, others⟩⟩
      · rfl
      · cases h : isCallable selector <;> simp [Item.mapValues, mixin?, h, Mixin.mapValues]
      · rfl
    | declaration | definition | call | atRule | mixin => rfl
  simp only [ofItems, mapValues, Item.mapValuesAll_eq_map, List.filterMap_map, Function.comp_def, hb, hm,
    List.map_reverse, List.map_filterMap]

end Scope

namespace Scopes

def mapValues (S : Scopes) : Scopes := S.map (Scope.mapValues f)

theorem find?_mapValues (name : Text) (S : Scopes) :
    find? name (S.mapValues f) = (find? name S).map (Prod.map (Binding.mapValue f) (mapValues f)) := by
  induction S with
  | nil => rfl
  | cons s outer ih =>
    simp only [mapValues, List.map_cons, find?, Scope.mapValues, Scope.find?_mapValues]
    cases Scope.find? name s.bindings with
    | none => exact ih
    | some p => rfl

theorem mixinsNamed_mapValues (name : Text) (S : Scopes) :
    (S.mapValues f).mixinsNamed name = (S.mixinsNamed name).map (Mixin.mapValues f) := by
  have hs : ∀ s : Scope, (s.mapValues f).mixinsNamed name = (s.mixinsNamed name).map (Mixin.mapValues f) := by
    intro s
    simp only [Scope.mixinsNamed, Scope.mapValues, List.filterMap_map, List.map_filterMap]
    congr 1
    funext m
    by_cases hn : m.1 = name <;> simp [hn]
  induction S with
  | nil => rfl
  | cons s S ih =>
    unfold mixinsNamed mapValues at ih ⊢
    rw [List.map_cons, List.map_cons, List.map_cons, List.find?_cons, List.find?_cons, hs, List.isEmpty_map]
    cases (s.mixinsNamed name).isEmpty with
    | true => exact ih
    | false => rfl

end Scopes
end LessCss
