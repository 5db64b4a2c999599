import LessCss.Compile
import LessCss.Proofs.Expr.Places
import LessCss.Proofs.Sheet.Places
/-!
Evaluation keeps places for diagnostics alone.

A sheet without places evaluates to what the sheet evaluates to, up to the places in a diagnostic
(`Sheet.evaluate_unplaced`). Look-ups are followed by the number of definitions that are not being evaluated,
calls by the number of names that may still be called.
-/
namespace LessCss

open Token (unplaced bare)

def Binding.unplaced : Binding → Binding
  | deferred value => deferred (value.map Token.unplaced)
  | b => b

def Mixin.unplaced : Mixin → Mixin
  | plain body => plain (Item.unplacedAll body)
  | parametric params body => parametric (params.map Parameter.unplaced) (Item.unplacedAll body)

def Scope.unplaced (s : Scope) : Scope :=
  ⟨s.bindings.map (Prod.map id Binding.unplaced), s.mixins.map (Prod.map id Mixin.unplaced)⟩

def Scopes.unplaced (ss : Scopes) : Scopes := ss.map Scope.unplaced

theorem Scope.find?_unplaced (name : Text) (bs : List (Text × Binding)) :
    Scope.find? name (bs.map (Prod.map id Binding.unplaced)) =
      (Scope.find? name bs).map (Prod.map Binding.unplaced (List.map (Prod.map id Binding.unplaced))) := by
  induction bs with
  | nil => rfl
  | cons b bs ih =>
    obtain ⟨n, b⟩ := b
    simp only [List.map_cons, Prod.map_apply, id_eq, Scope.find?, ih]
    split
    · rfl
    · cases Scope.find? name bs <;> rfl

theorem Scope.ofItems_unplaced (is : List Item) :
    Scope.ofItems (Item.unplacedAll is) = (Scope.ofItems is).unplaced := by
  have hb : ∀ i : Item, Scope.binding? i.unplaced = (Scope.binding? i).map (Prod.map id Binding.unplaced) := by
    intro i
    cases i <;> rfl
  have hm : ∀ i : Item, Scope.mixin? i.unplaced = (Scope.mixin? i).map (Prod.map id Mixin.unplaced) := by
    intro i
    cases i with
    | rule selectors body =>
      rcases selectors with _ | ⟨s, _ | ⟨s', ss⟩⟩
      · rfl
      · cases h : Scope.isCallable s <;> simp [Item.unplaced, Scope.mixin?, h, Mixin.unplaced]
      · rfl
    | _ => rfl
  simp only [Scope.ofItems, Scope.unplaced, Item.unplacedAll_eq_map, List.filterMap_map, Function.comp_def, hb, hm,
    List.map_reverse, List.map_filterMap]

namespace Scopes

theorem find?_unplaced (name : Text) (ss : Scopes) :
    find? name ss.unplaced = (find? name ss).map (Prod.map Binding.unplaced Scopes.unplaced) := by
  induction ss with
  | nil => rfl
  | cons s outer ih =>
    simp only [Scopes.unplaced, List.map_cons, find?, Scope.unplaced, Scope.find?_unplaced]
    cases Scope.find? name s.bindings with
    | none => exact ih
    | some p => rfl

theorem resolve_eq (ss : Scopes) (name : Text) (p : Position) : resolve ss name p =
    match find? name ss with
    | none => .error ((Fault.undefinedVariable name).blame p)
    | some (.resolved v, _) => .ok v
    | some (.pending, _) => .error ((Fault.recursiveVariable name).blame p)
    | some (.deferred value, home) => Expr.ofTokens value >>= fun e => e.evaluate (resolve home) := by
  rw [resolve]
  split <;> simp_all

/-- Look-ups find the same without places, by induction on the definitions that are not being evaluated. -/
theorem resolve_unplaced (ss : Scopes) : Expr.SameLookup (resolve ss.unplaced) (resolve ss) := by
  induction hn : ss.deferredCount using Nat.strongRecOn generalizing ss with
  | ind n ih =>
    intro name p
    rw [resolve_eq, resolve_eq, find?_unplaced]
    cases h : find? name ss with
    | none => rfl
    | some q =>
      obtain ⟨b, home⟩ := q
      cases b with
      | resolved v => rfl
      | pending => rfl
      | deferred value =>
        have hlt : home.deferredCount < n := hn ▸ deferredCount_find? h
        simp only [Option.map_some, Prod.map_apply, Binding.unplaced]
        rw [Expr.ofTokens_unplaced]
        exact forget_bind fun e _ => Expr.evaluate_unplaced (ih _ hlt home rfl) e

theorem evaluate_unplaced (ss : Scopes) (value : List Token) :
    ss.unplaced.evaluate (value.map Token.unplaced) = forget id (ss.evaluate value) := by
  rw [evaluate, evaluate, Expr.ofTokens_unplaced]
  exact forget_bind fun e _ => Expr.evaluate_unplaced (resolve_unplaced ss) e

theorem mixinsNamed_unplaced (ss : Scopes) (name : Text) :
    ss.unplaced.mixinsNamed name = (ss.mixinsNamed name).map Mixin.unplaced := by
  have hs : ∀ s : Scope, s.unplaced.mixinsNamed name = (s.mixinsNamed name).map Mixin.unplaced := by
    intro s
    simp only [Scope.mixinsNamed, Scope.unplaced, List.filterMap_map, List.map_filterMap]
    congr 1
    funext m
    by_cases hn : m.1 = name <;> simp [hn]
  simp only [mixinsNamed, Scopes.unplaced, List.map_map, Function.comp_def, hs]
  rw [← Function.comp_def (List.map Mixin.unplaced), ← List.map_map, List.find?_map]
  simp only [Function.comp_def, List.isEmpty_map]
  cases (ss.map (·.mixinsNamed name)).find? fun ms => !ms.isEmpty <;> rfl

end Scopes

namespace Mixin

theorem accepts_unplaced (count : Nat) (m : Mixin) : m.unplaced.accepts count = m.accepts count := by
  cases m with
  | plain body => rfl
  | parametric params body => simp [Mixin.unplaced, accepts, ← List.map_drop, Function.comp_def, Parameter.unplaced]

theorem body_unplaced (m : Mixin) : m.unplaced.body = Item.unplacedAll m.body := by
  cases m <;> rfl

theorem bindFallbacks_unplaced (outer : Scopes) (scope : Scope) (params : List Parameter) :
    bindFallbacks outer.unplaced scope.unplaced (params.map Parameter.unplaced) =
      forget (Prod.map Scope.unplaced id) (bindFallbacks outer scope params) := by
  induction params generalizing scope with
  | nil => rfl
  | cons p params ih =>
    obtain ⟨name, fallback⟩ := p
    cases fallback with
    | none => exact ih scope
    | some value =>
      simp only [List.map_cons, Parameter.unplaced, Option.map_some, bindFallbacks]
      rw [show scope.unplaced :: outer.unplaced = Scopes.unplaced (scope :: outer) from rfl,
        Scopes.evaluate_unplaced]
      refine forget_bind fun v _ => ?_
      rw [show scope.unplaced.bind name (id v) = (scope.bind name v).unplaced from rfl, ih]
      exact forget_bind fun q _ => rfl

theorem bindArguments_unplaced (params : List Parameter) (args : List Value) :
    bindArguments (params.map Parameter.unplaced) args = (bindArguments params args).unplaced := by
  have h : ∀ (ps : List (Parameter × Value)) (s : Scope),
      (ps.map (Prod.map Parameter.unplaced id)).foldl (fun s p => s.bind p.1.name p.2) s.unplaced =
        (ps.foldl (fun s p => s.bind p.1.name p.2) s).unplaced := by
    intro ps
    induction ps with
    | nil =>
      intro s
      rfl
    | cons p ps ih =>
      intro s
      exact ih (s.bind p.1.name p.2)
  have hz : (params.map Parameter.unplaced).zip args = (params.zip args).map (Prod.map Parameter.unplaced id) := by
    rw [List.zip_map_left]
  rw [bindArguments, bindArguments, hz]
  exact h (params.zip args) .empty

theorem parameterScope_unplaced (outer : Scopes) (params : List Parameter) (args : List Value) :
    parameterScope outer.unplaced (params.map Parameter.unplaced) args =
      forget Scope.unplaced (parameterScope outer params args) := by
  rw [parameterScope, parameterScope, bindArguments_unplaced, ← List.map_drop, bindFallbacks_unplaced]
  exact forget_bind fun p _ => rfl

theorem bodyScopes_unplaced (outer : Scopes) (args : List Value) (m : Mixin) :
    m.unplaced.bodyScopes outer.unplaced args = forget Scopes.unplaced (m.bodyScopes outer args) := by
  cases m with
  | plain body =>
    simp only [Mixin.unplaced, bodyScopes, Scope.ofItems_unplaced]
    rfl
  | parametric params body =>
    simp only [Mixin.unplaced, bodyScopes, Scope.ofItems_unplaced, parameterScope_unplaced]
    exact forget_bind fun s _ => rfl

end Mixin

/-- What calls without places yield, the other calls yield in the scopes with places. -/
def SameExpansion (calls' calls : Expansion) : Prop :=
  ∀ (scopes : Scopes) (selectors : List Text) (c : Call),
    calls' scopes.unplaced selectors c.unplaced = forget id (calls scopes selectors c)

variable {calls calls' : Expansion}

namespace Item

mutual

theorem yield_unplaced (h : SameExpansion calls' calls) (scopes : Scopes) (selectors : List Text) (i : Item) :
    yield calls' scopes.unplaced selectors i.unplaced = forget id (yield calls scopes selectors i) := by
  cases i with
  | declaration d =>
    rw [Item.unplaced, yield, yield, Declaration.evaluate, Declaration.evaluate, Declaration.unplaced,
      Scopes.evaluate_unplaced, map_forget, map_forget, forget_map, forget_map]
    rfl
  | definition d => rfl
  | call c => exact h scopes selectors c
  | rule own body =>
    rw [Item.unplaced, yield, yield, Scope.ofItems_unplaced,
      show (Scope.ofItems body).unplaced :: scopes.unplaced = Scopes.unplaced (.ofItems body :: scopes) from rfl]
    rw [yieldAll_unplaced h _ _ body]
    exact forget_bind fun y _ => rfl
  | atRule name params body =>
    rw [Item.unplaced, yield, yield, Scope.ofItems_unplaced,
      show (Scope.ofItems body).unplaced :: scopes.unplaced = Scopes.unplaced (.ofItems body :: scopes) from rfl,
      yieldAll_unplaced h _ _ body]
    exact forget_bind fun y _ => rfl
  | mixin name params body => rfl

theorem yieldAll_unplaced (h : SameExpansion calls' calls) (scopes : Scopes) (selectors : List Text)
    (is : List Item) :
    yieldAll calls' scopes.unplaced selectors (unplacedAll is) = forget id (yieldAll calls scopes selectors is) := by
  cases is with
  | nil => rfl
  | cons i is =>
    rw [unplacedAll, yieldAll, yieldAll, yield_unplaced h scopes selectors i,
      yieldAll_unplaced h scopes selectors is]
    exact forget_bind fun y _ => forget_bind fun ys _ => rfl

end

mutual

theorem mixinNames_unplaced (i : Item) : mixinNames i.unplaced = mixinNames i := by
  cases i with
  | rule selectors body =>
    rcases selectors with _ | ⟨s, _ | ⟨s', ss⟩⟩
    · simp [Item.unplaced, mixinNames, Scope.mixin?, mixinNamesAll_unplaced body]
    · cases h : Scope.isCallable s <;>
        simp [Item.unplaced, mixinNames, Scope.mixin?, h, mixinNamesAll_unplaced body]
    · simp [Item.unplaced, mixinNames, Scope.mixin?, mixinNamesAll_unplaced body]
  | atRule name params body => simp [Item.unplaced, mixinNames, Scope.mixin?, mixinNamesAll_unplaced body]
  | mixin name params body => simp [Item.unplaced, mixinNames, Scope.mixin?, mixinNamesAll_unplaced body]
  | _ => rfl

theorem mixinNamesAll_unplaced (is : List Item) : mixinNamesAll (unplacedAll is) = mixinNamesAll is := by
  cases is with
  | nil => rfl
  | cons i is => rw [unplacedAll, mixinNamesAll, mixinNamesAll, mixinNames_unplaced i, mixinNamesAll_unplaced is]

end

end Item

theorem Mixin.yieldAll_unplaced (h : SameExpansion calls' calls) (scopes : Scopes) (selectors : List Text)
    (args : List Value) (ms : List Mixin) :
    Mixin.yieldAll calls' scopes.unplaced selectors args (ms.map Mixin.unplaced) =
      forget id (Mixin.yieldAll calls scopes selectors args ms) := by
  induction ms with
  | nil => rfl
  | cons m ms ih =>
    rw [List.map_cons, Mixin.yieldAll, Mixin.yieldAll, Mixin.bodyScopes_unplaced, ih]
    refine forget_bind fun ss _ => ?_
    rw [Mixin.body_unplaced, Item.yieldAll_unplaced h]
    exact forget_bind fun y _ => forget_bind fun ys _ => rfl

/-- Calls yield the same without places, by induction on the names that may still be called. -/
theorem expand_unplaced (callable : List Text) : SameExpansion (expand callable) (expand callable) := by
  induction hn : callable.length using Nat.strongRecOn generalizing callable with
  | ind n ih =>
    intro scopes selectors c
    have hargs : c.unplaced.args.mapM scopes.unplaced.evaluate = forget id (c.args.mapM scopes.evaluate) := by
      rw [← List.map_id_fun]
      exact forget_mapM (Scopes.evaluate_unplaced scopes) c.args
    rw [expand, expand, show c.unplaced.name = c.name from rfl, Scopes.mixinsNamed_unplaced, hargs]
    cases scopes.mixinsNamed c.name with
    | nil => rfl
    | cons m ms =>
      rw [List.map_cons]
      dsimp only
      by_cases hc : c.name ∈ callable
      · have hlt : (without c.name callable).length < n := hn ▸ without_length hc
        rw [dif_pos hc, dif_pos hc]
        refine forget_bind fun args _ => ?_
        rw [← List.map_cons, List.filter_map]
        simp only [Function.comp_def, Mixin.accepts_unplaced, id_eq]
        cases (m :: ms).filter (·.accepts args.length) with
        | nil => rfl
        | cons m ms =>
          rw [List.map_cons]
          dsimp only
          rw [← List.map_cons, Mixin.yieldAll_unplaced (ih _ hlt _ rfl)]
          exact forget_bind fun y _ => rfl
      · rw [dif_neg hc, dif_neg hc]
        rfl

/-- What a sheet evaluates to does not depend on places. -/
theorem Sheet.evaluate_unplaced (s : Sheet) : s.unplaced.evaluate = forget id s.evaluate := by
  have hitems : Sheet.items s.unplaced = Item.unplacedAll s.items := by
    rw [Sheet.items, Sheet.items, Sheet.unplaced, Item.unplacedAll_eq_map, List.filterMap_map, List.map_filterMap]
    congr 1
    funext st
    cases st <;> rfl
  have hnodes : ∀ st : Statement,
      nodesOf (expand (Item.mixinNamesAll s.items)) [.ofItems (Item.unplacedAll s.items)] st.unplaced =
        forget id (nodesOf (expand (Item.mixinNamesAll s.items)) [.ofItems s.items] st) := by
    intro st
    have hcalls := expand_unplaced (Item.mixinNamesAll s.items)
    rw [Scope.ofItems_unplaced, show [(Scope.ofItems s.items).unplaced] = Scopes.unplaced [.ofItems s.items] from rfl]
    cases st with
    | directive d => rfl
    | definition d => rfl
    | call c =>
      rw [Statement.unplaced, nodesOf, nodesOf, hcalls]
      refine forget_bind fun y _ => ?_
      cases hy : y.properties.isEmpty <;> simp [hy, Call.unplaced]
    | rule selectors body =>
      have h := Item.yield_unplaced hcalls [.ofItems s.items] [] (.rule selectors body)
      rw [Item.unplaced] at h
      rw [Statement.unplaced, nodesOf, nodesOf, h, map_forget, forget_map]
      rfl
    | atRule name params body =>
      have h := Item.yield_unplaced hcalls [.ofItems s.items] [] (.atRule name params body)
      rw [Item.unplaced] at h
      rw [Statement.unplaced, nodesOf, nodesOf, h, map_forget, forget_map]
      rfl
    | mixin name params body => rfl
  rw [Sheet.evaluate, Sheet.evaluate]
  simp only [hitems, Item.mixinNamesAll_unplaced]
  rw [Sheet.unplaced, forget_mapM hnodes, map_forget, forget_map, List.map_id_fun]
  rfl

end LessCss
