import Mathlib.Data.List.Forall2
import LessCss.Proofs.Css.CallScopes
/-!
What a call binds.

The arguments of a call are the values of the first parameters. Each of the others has the value of its fallback in the
scopes of the call, with the parameters before it in sight (`Mixin.Values`). The body of the mixin sees its own
definitions first, then these values, and then what the call sees (`Mixin.Sees`). A call takes the mixins of its name
from one scope, and those of them that accept its arguments contribute one after the other (`expand_binds`).
-/
namespace LessCss

/-- A scope in which names stand for values and that holds nothing else. -/
structure Scope.HoldsOnly (s : Scope) (bound : List (Text × Value)) : Prop where
  given : ∀ q ∈ bound, ∀ (S : Scopes) (p : Position), Scopes.resolve (s :: S) q.1 p = .ok q.2
  free : ∀ name ∉ bound.map (·.1), ∀ S : Scopes, Scopes.resolve (s :: S) name = Scopes.resolve S name

theorem Scope.HoldsOnly.of_mem {s : Scope} {bound bound' : List (Text × Value)} (h : s.HoldsOnly bound)
    (hmem : ∀ q, q ∈ bound' ↔ q ∈ bound) : s.HoldsOnly bound' where
  given q hq := h.given q ((hmem q).mp hq)
  free name hname := h.free name fun hin => hname (by
    obtain ⟨q, hq, rfl⟩ := List.mem_map.mp hin
    exact List.mem_map.mpr ⟨q, (hmem q).mpr hq, rfl⟩)

theorem Scope.find?_ofValues {bound : List (Text × Value)} (h : (bound.map (·.1)).Nodup) {q : Text × Value}
    (hq : q ∈ bound) : ∃ marked, Scope.find? q.1 (Scope.ofValues bound).bindings = some (.resolved q.2, marked) := by
  induction bound with
  | nil => exact nomatch hq
  | cons r bound ih =>
    obtain ⟨n, v⟩ := r
    rw [List.map_cons, List.nodup_cons] at h
    rcases List.mem_cons.mp hq with rfl | hq
    · exact ⟨_, if_pos rfl⟩
    · obtain ⟨marked, hfind⟩ := ih h.2 hq
      have hne : n ≠ q.1 := fun hn => h.1 (hn ▸ List.mem_map.mpr ⟨q, hq, rfl⟩)
      refine ⟨(n, .resolved v) :: marked, ?_⟩
      show (if n = q.1 then _ else _) = _
      rw [if_neg hne]
      exact congrArg (Option.map _) hfind

theorem Scope.holdsOnly_ofValues {bound : List (Text × Value)} (h : (bound.map (·.1)).Nodup) :
    (Scope.ofValues bound).HoldsOnly bound where
  given q hq S p := by
    obtain ⟨marked, hfind⟩ := Scope.find?_ofValues h hq
    rw [Scopes.resolve_eq, Scopes.find?, hfind]
  free name hname S := by
    funext p
    have hnone : ∀ s ∈ [Scope.ofValues bound], ¬s.Binds name := by
      refine List.forall_mem_singleton.mpr fun hbinds => hname ?_
      simpa [Scope.Binds, Scope.ofValues, Function.comp_def] using hbinds
    exact Scopes.resolve_append hnone p

namespace Mixin

/-- The first parameters by name, with their values. -/
def named (params : List Parameter) (vs : List Value) : List (Text × Value) :=
  (params.zip vs).map fun (p, v) => (p.name, v)

/-- Values of the first parameters of a call with the arguments `args`. They begin with the arguments. -/
inductive Values (S : Scopes) (params : List Parameter) (args : List Value) : List Value → Prop
  | args : Values S params args args
  | fallback {vs p tokens v} {E : Scope} (h : Values S params args vs) (hp : params[vs.length]? = some p)
    (htokens : p.fallback = some tokens) (hE : E.HoldsOnly (named params vs))
    (hv : Scopes.evaluate (E :: S) tokens = .ok v) : Values S params args (vs ++ [v])

/-- The parameter after those with the values `vs` has a fallback that fails. -/
def Fails (S : Scopes) (params : List Parameter) (vs : List Value) (d : Diagnostic) : Prop :=
  ∃ (p : Parameter) (tokens : List Token) (E : Scope), params[vs.length]? = some p ∧ p.fallback = some tokens ∧
    E.HoldsOnly (named params vs) ∧ Scopes.evaluate (E :: S) tokens = .error d

variable {S : Scopes} {params : List Parameter} {args vs : List Value}

theorem boundArguments_eq (params : List Parameter) (vs : List Value) :
    boundArguments params vs = (named params vs).reverse := rfl

theorem names_sublist (params : List Parameter) (vs : List Value) :
    ((named params vs).map (·.1)).Sublist (params.map (·.name)) := by
  induction params generalizing vs with
  | nil => exact .slnil
  | cons p params ih =>
    cases vs with
    | nil => exact List.nil_sublist _
    | cons v vs => exact (ih vs).cons_cons p.name

theorem holdsOnly_boundArguments (hnames : (params.map (·.name)).Nodup) (vs : List Value) :
    (Scope.ofValues (boundArguments params vs)).HoldsOnly (named params vs) := by
  refine (Scope.holdsOnly_ofValues ?_).of_mem fun q => List.mem_reverse.symm
  rw [boundArguments_eq, List.map_reverse, (List.reverse_perm _).nodup_iff]
  exact hnames.sublist (names_sublist params vs)

theorem holdsOnly_arguments (hnames : ("arguments".toList :: params.map (·.name)).Nodup) (v : Value)
    (vs : List Value) : (Scope.ofValues (("arguments".toList, v) :: boundArguments params vs)).HoldsOnly
      (("arguments".toList, v) :: named params vs) := by
  refine (Scope.holdsOnly_ofValues ?_).of_mem fun q => ((List.reverse_perm _).symm.cons _).mem_iff
  rw [List.map_cons, boundArguments_eq, List.map_reverse, ((List.reverse_perm _).cons _).nodup_iff]
  exact hnames.sublist ((names_sublist params vs).cons_cons _)

theorem boundArguments_append {before : List Parameter} (hlen : before.length = vs.length) (p : Parameter)
    (ps : List Parameter) (v : Value) :
    boundArguments (before ++ p :: ps) (vs ++ [v]) = (p.name, v) :: boundArguments (before ++ p :: ps) vs := by
  have hshort : (before ++ p :: ps).zip vs = before.zip vs := by
    rw [← List.append_nil vs, List.zip_append hlen]
    simp
  rw [boundArguments, boundArguments, hshort, List.zip_append hlen]
  simp

/-- The values of the parameters that a call leaves out are found one after the other, up to the first that fails. -/
theorem bindFallbacks_values (hnames : (params.map (·.name)).Nodup) {before ps : List Parameter}
    (hparams : params = before ++ ps) (hlen : before.length = vs.length) (hsome : ∀ p ∈ ps, p.fallback.isSome)
    (h : Values S params args vs) :
    (∃ ws, Values S params args (vs ++ ws) ∧ (vs ++ ws).length = params.length ∧
      bindFallbacks S (.ofValues (boundArguments params vs)) ps =
        .ok (.ofValues (boundArguments params (vs ++ ws)), ws)) ∨
    ∃ ws d, Values S params args (vs ++ ws) ∧ Fails S params (vs ++ ws) d ∧
      bindFallbacks S (.ofValues (boundArguments params vs)) ps = .error d := by
  induction ps generalizing before vs with
  | nil =>
    refine .inl ⟨[], ?_, ?_, ?_⟩
    · rwa [List.append_nil]
    · rw [List.append_nil, hparams, List.append_nil, hlen]
    · rw [List.append_nil]
      rfl
  | cons p ps ih =>
    rw [List.forall_mem_cons] at hsome
    obtain ⟨tokens, htokens⟩ := Option.isSome_iff_exists.mp hsome.1
    have hp : params[vs.length]? = some p := by
      rw [hparams, ← hlen]
      simp
    have hE := holdsOnly_boundArguments hnames vs
    rw [bindFallbacks, htokens]
    dsimp only
    cases hv : Scopes.evaluate (.ofValues (boundArguments params vs) :: S) tokens with
    | error d =>
      refine .inr ⟨[], d, ?_, ?_, rfl⟩
      · rwa [List.append_nil]
      · rw [List.append_nil]
        exact ⟨p, tokens, _, hp, htokens, hE, hv⟩
    | ok v =>
      have hbind : (Scope.ofValues (boundArguments params vs)).bind p.name v =
          .ofValues (boundArguments params (vs ++ [v])) := by
        rw [Scope.ofValues_bind, hparams, boundArguments_append hlen]
      rw [ok_bind, hbind]
      have hparams' : params = (before ++ [p]) ++ ps := by simp [hparams]
      have hlen' : (before ++ [p]).length = (vs ++ [v]).length := by simp [hlen]
      rcases ih hparams' hlen' hsome.2 (h.fallback hp htokens hE hv) with
        ⟨ws, hvalues, hall, hok⟩ | ⟨ws, d, hvalues, hfails, herror⟩
      · rw [hok, ← List.append_cons]
        rw [← List.append_cons] at hvalues hall
        exact .inl ⟨v :: ws, hvalues, hall, rfl⟩
      · rw [herror]
        rw [← List.append_cons] at hvalues hfails
        exact .inr ⟨v :: ws, d, hvalues, hfails, rfl⟩

/-- In the scopes `T` the definitions of a body come first, then the names that its call binds, and then the scopes of
the call. Of two definitions of a name the last one counts. -/
structure Sees (T : Scopes) (body : List Item) (bound : List (Text × Value)) (S : Scopes) : Prop where
  definition : ∀ before d after, body = before ++ .definition d :: after →
    (∀ d', .definition d' ∈ after → d'.name ≠ d.name) →
    ∃ home, Scopes.find? d.name T = some (.deferred d.value, home)
  given : ∀ q ∈ bound, (∀ d, .definition d ∈ body → d.name ≠ q.1) → ∀ p, T.resolve q.1 p = .ok q.2
  free : ∀ name ∉ bound.map (·.1), (∀ d, .definition d ∈ body → d.name ≠ name) → T.resolve name = S.resolve name

theorem find?_definition {name : Text} {b : Binding} {bs cs : List (Text × Binding)} (h : name ∉ bs.map (·.1)) :
    Scope.find? name (bs ++ (name, b) :: cs) = some (b, bs ++ (name, .pending) :: cs) := by
  induction bs with
  | nil => exact if_pos rfl
  | cons r bs ih =>
    rw [List.map_cons, List.mem_cons, not_or] at h
    rw [List.cons_append, Scope.find?, if_neg (Ne.symm h.1), ih h.2]
    rfl

theorem find?_ofItems {before after : List Item} {d : Definition}
    (h : ∀ d', .definition d' ∈ after → d'.name ≠ d.name) :
    ∃ marked, Scope.find? d.name (Scope.ofItems (before ++ .definition d :: after)).bindings =
      some (.deferred d.value, marked) := by
  have hbindings : (Scope.ofItems (before ++ .definition d :: after)).bindings =
      (Scope.ofItems after).bindings ++ (d.name, .deferred d.value) :: (Scope.ofItems before).bindings := by
    simp [Scope.ofItems, Scope.binding?]
  have hlater : d.name ∉ (Scope.ofItems after).bindings.map (·.1) := by
    intro hin
    obtain ⟨q, hq, hname⟩ := List.mem_map.mp hin
    obtain ⟨d', hd', rfl⟩ := Scope.exists_definition hq
    exact h d' hd' hname
  rw [hbindings]
  exact ⟨_, find?_definition hlater⟩

theorem not_binds_ofItems {body : List Item} {name : Text} (h : ∀ d, .definition d ∈ body → d.name ≠ name) :
    ¬(Scope.ofItems body).Binds name := by
  intro hbinds
  obtain ⟨q, hq, hname⟩ := List.mem_map.mp hbinds
  obtain ⟨d, hd, rfl⟩ := Scope.exists_definition hq
  exact h d hd hname

/-- A body sees what the scopes around it bind, below its own definitions. -/
theorem sees_ofItems {T S : Scopes} {bound : List (Text × Value)} (body : List Item)
    (hgiven : ∀ q ∈ bound, ∀ p, T.resolve q.1 p = .ok q.2)
    (hfree : ∀ name ∉ bound.map (·.1), T.resolve name = S.resolve name) : Sees (.ofItems body :: T) body bound S where
  definition before d after hbody hlater := by
    obtain ⟨marked, hfind⟩ := find?_ofItems hlater
    rw [Scopes.find?, hbody, hfind]
    exact ⟨_, rfl⟩
  given q hq hbody p := by
    rw [← hgiven q hq p]
    exact Scopes.resolve_append (List.forall_mem_singleton.mpr (not_binds_ofItems hbody)) p
  free name hname hbody := by
    rw [← hfree name hname]
    funext p
    exact Scopes.resolve_append (List.forall_mem_singleton.mpr (not_binds_ofItems hbody)) p

/-- How a body is entered that is called with the arguments `args` from the scopes `S`, if all fallbacks that it needs
have values. -/
def Enters (S : Scopes) (args : List Value) : Mixin → Prop
  | m@(plain body) => ∃ T, m.bodyScopes S args = .ok T ∧ Sees T body [] S
  | m@(parametric params body) =>
    (∃ rest T, Values S params args (args ++ rest) ∧ (args ++ rest).length = params.length ∧
      m.bodyScopes S args = .ok T ∧
      Sees T body (("arguments".toList, .list (args ++ rest) .space) :: named params (args ++ rest)) S) ∨
    ∃ rest d, Values S params args (args ++ rest) ∧ Fails S params (args ++ rest) d ∧ m.bodyScopes S args = .error d

/-- When a mixin may be called with `count` arguments. -/
def Takes (count : Nat) : Mixin → Prop
  | plain _ => count = 0
  | parametric params _ => count ≤ params.length ∧ ∀ p ∈ params.drop count, p.fallback.isSome

theorem accepts_iff (count : Nat) (m : Mixin) : m.accepts count = true ↔ m.Takes count := by
  cases m with
  | plain body => exact decide_eq_true_iff
  | parametric params body => simp [accepts, Takes]

theorem enters {m : Mixin} (hnames : m.parameterNames.Nodup) (h : m.Takes args.length) : m.Enters S args := by
  cases m with
  | plain body => exact ⟨_, rfl, sees_ofItems body nofun fun _ _ => rfl⟩
  | parametric params body =>
    have harguments : ("arguments".toList :: params.map (·.name)).Nodup := hnames
    have hsplit : params = params.take args.length ++ params.drop args.length := (List.take_append_drop ..).symm
    have hlen : (params.take args.length).length = args.length := List.length_take_of_le h.1
    rcases bindFallbacks_values (S := S) (List.nodup_cons.mp hnames).2 hsplit hlen h.2 .args with
      ⟨rest, hvalues, hall, hok⟩ | ⟨rest, d, hvalues, hfails, herror⟩
    · have hholds := holdsOnly_arguments harguments (.list (args ++ rest) .space) (args ++ rest)
      have hsees := sees_ofItems body (fun q hq p => hholds.given q hq S p) fun name hname => hholds.free name hname S
      refine .inl ⟨rest, _, hvalues, hall, ?_, hsees⟩
      rw [bodyScopes, parameterScope, bindArguments_eq, hok]
      rfl
    · refine .inr ⟨rest, d, hvalues, hfails, ?_⟩
      rw [bodyScopes, parameterScope, bindArguments_eq, herror]
      rfl

end Mixin

theorem Scopes.mixinsNamed_skip {s : Scope} {name : Text} (h : s.mixinsNamed name = []) (S : Scopes) :
    mixinsNamed (s :: S) name = S.mixinsNamed name := by
  simp [mixinsNamed, h]

/-- The mixins of a name come from the innermost scope that has any. -/
theorem Scopes.mixinsNamed_split {S : Scopes} {name : Text} (h : S.mixinsNamed name ≠ []) :
    ∃ inner s outer, S = inner ++ s :: outer ∧ (∀ t ∈ inner, t.mixinsNamed name = []) ∧
      S.mixinsNamed name = s.mixinsNamed name := by
  induction S with
  | nil => exact absurd rfl h
  | cons t S ih =>
    cases ht : t.mixinsNamed name with
    | cons m ms => exact ⟨[], t, S, rfl, nofun, by simp [mixinsNamed, ht]⟩
    | nil =>
      rw [mixinsNamed_skip ht] at h ⊢
      obtain ⟨inner, s, outer, rfl, hinner, hs⟩ := ih h
      exact ⟨t :: inner, s, outer, rfl, List.forall_mem_cons.mpr ⟨ht, hinner⟩, hs⟩

theorem mapM_eq_ok_iff {α β : Type} {f : α → Except Diagnostic β} {as : List α} {bs : List β} :
    as.mapM f = .ok bs ↔ List.Forall₂ (fun a b => f a = .ok b) as bs := by
  constructor
  · intro h
    induction as generalizing bs with
    | nil =>
      obtain rfl : [] = bs := Except.ok.inj h
      exact .nil
    | cons a as ih =>
      obtain ⟨b, others, hb, hothers, rfl⟩ := mapM_cons_eq_ok h
      exact .cons hb (ih hothers)
  · intro h
    induction h with
    | nil => rfl
    | cons hb _ ih =>
      rw [List.mapM_cons, hb, ih]
      rfl

/-- A call of a mixin that is defined and that is not being expanded takes the mixins of the innermost scope that has
any. Its arguments are evaluated first, in the scopes of the call. If no mixin takes so many arguments, the call fails.
Those that do contribute one after the other. Each of them sees its own definitions, below them its parameters with
their values, and below these what the call sees. -/
theorem expand_binds {callable : List Text} {S : Scopes} {c : Call} (hdefined : S.mixinsNamed c.name ≠ [])
    (hcallable : c.name ∈ callable) (selectors : List Text) :
    (∃ inner s outer, S = inner ++ s :: outer ∧ (∀ t ∈ inner, t.mixinsNamed c.name = []) ∧
      S.mixinsNamed c.name = s.mixinsNamed c.name) ∧
    (∀ d, c.args.mapM S.evaluate = .error d → expand callable S selectors c = .error d) ∧
    ∀ args, List.Forall₂ (fun value v => S.evaluate value = .ok v) c.args args →
      ((∀ m ∈ S.mixinsNamed c.name, ¬m.Takes c.args.length) →
        expand callable S selectors c = .error ((Fault.noMatchingMixin c.name).blame c.position)) ∧
      ((∃ m ∈ S.mixinsNamed c.name, m.Takes c.args.length) →
        expand callable S selectors c =
          (((S.mixinsNamed c.name).filter (Mixin.accepts c.args.length)).mapM fun m : Mixin => do
            Item.yieldAll (expand (without c.name callable)) (← m.bodyScopes S args) selectors m.body).map fun ys =>
              if c.important then (Yield.concat ys).important else Yield.concat ys) ∧
      ∀ m ∈ S.mixinsNamed c.name, (m.accepts c.args.length = true ↔ m.Takes c.args.length) ∧
        (m.Takes c.args.length → m.parameterNames.Nodup → m.Enters S args) := by
  have hsome : (S.mixinsNamed c.name).isEmpty = false := by simpa using hdefined
  refine ⟨Scopes.mixinsNamed_split hdefined, ?_, ?_⟩
  · intro d hd
    rw [expand_eq, hsome, if_neg (by simp), if_neg (not_not_intro hcallable), hd]
    rfl
  · intro args hargs
    have hlen : args.length = c.args.length := hargs.length_eq.symm
    have hexpand : expand callable S selectors c =
        if ((S.mixinsNamed c.name).filter (Mixin.accepts c.args.length)).isEmpty then
          .error ((Fault.noMatchingMixin c.name).blame c.position)
        else (do
          let y ← Mixin.yieldAll (expand (without c.name callable)) S selectors args
            ((S.mixinsNamed c.name).filter (Mixin.accepts c.args.length))
          .ok (if c.important then y.important else y)) := by
      rw [expand_eq, hsome, if_neg (by simp), if_neg (not_not_intro hcallable), mapM_eq_ok_iff.mpr hargs, ← hlen]
      rfl
    refine ⟨fun hnone => ?_, fun hsome => ?_, fun m _ => ⟨Mixin.accepts_iff _ m, fun htakes hnames => ?_⟩⟩
    · rw [hexpand, if_pos]
      rw [List.isEmpty_iff, List.filter_eq_nil_iff]
      exact fun m hm haccepts => hnone m hm ((Mixin.accepts_iff _ m).mp haccepts)
    · obtain ⟨m, hm, htakes⟩ := hsome
      have hmem := List.mem_filter.mpr ⟨hm, (Mixin.accepts_iff _ m).mpr htakes⟩
      rw [hexpand, if_neg (by simpa using List.ne_nil_of_mem hmem), Mixin.yieldAll_eq_mapM]
      generalize List.mapM (m := Except Diagnostic) _ _ = ys
      cases ys <;> rfl
    · exact Mixin.enters hnames (hlen ▸ htakes)

/-- An argument that mentions a variable of the sheet with the name of a later parameter. -/
theorem expand_binds_namesake :
    let red : Token := ⟨.ident, "red".toList, ⟨1, 5⟩, true⟩
    let atB : Token := ⟨.atKeyword, "@b".toList, ⟨2, 8⟩, false⟩
    let params : List Parameter := [⟨"a".toList, none⟩, ⟨"b".toList, some [⟨.ident, "green".toList, ⟨1, 20⟩, true⟩]⟩]
    let color : Item := .declaration ⟨"color".toList, [⟨.atKeyword, "@a".toList, ⟨1, 30⟩, true⟩], false⟩
    let top : Scope := .ofItems [.definition ⟨"b".toList, [red]⟩, .mixin ".m".toList params [color]]
    let c : Call := ⟨".m".toList, [[atB]], false, ⟨2, 5⟩⟩
    ∃ v, Scopes.evaluate [top] [atB] = .ok v ∧ v.render = "red".toList ∧
      Mixin.Enters [top] [v] (.parametric params [color]) ∧
      expand [".m".toList] [top] ["p".toList] c =
        ([Mixin.parametric params [color]].mapM fun m : Mixin => do
          Item.yieldAll (expand []) (← m.bodyScopes [top] [v]) ["p".toList] m.body).map Yield.concat := by
  intro red atB params color top c
  have hred : ((Scopes.evaluate [top] [atB]).map Value.render).toOption = some "red".toList := by decide +kernel
  obtain ⟨v, hv, hrender⟩ := map_eq_ok (eq_ok_of_toOption hred)
  have hm : Mixin.parametric params [color] ∈ Scopes.mixinsNamed [top] c.name := .head _
  have htakes : (Mixin.parametric params [color]).Takes c.args.length := (Mixin.accepts_iff _ _).mp rfl
  have h := (expand_binds (List.ne_nil_of_mem hm) (.head _ : c.name ∈ [".m".toList]) ["p".toList]).2.2 [v]
    (.cons hv .nil)
  exact ⟨v, hv, hrender, (h.2.2 _ hm).2 htakes (by decide), h.2.1 ⟨_, hm, htakes⟩⟩

end LessCss
