import LessCss.Proofs.Css.Guards
import LessCss.Proofs.Css.Places
/-!
Evaluation by guard stacks is the evaluation of sheets.

`step` evaluates a frame when the frames that it enters are evaluated, and `run` closes the circle, since no chain of
entries is endless. The model has no stacks: a definition that is being resolved is marked in its scope, and a name
that is being expanded is missing from the names that may be called. `Marked` relates the two for definitions, and
`unguarded` for names.
-/
namespace LessCss

def Binding.mark (resolving : Bool) : Binding → Binding
  | deferred value => if resolving then pending else deferred value
  | b => b

namespace Guards

/-- Binds the parameters that a call leaves out, in order, and lists their values. -/
def bindFallbacks : (ps : List Parameter) →
    (∀ p ∈ ps, ∀ value, p.fallback = some value → List (Text × Value) → Except Diagnostic Value) →
    List (Text × Value) → Except Diagnostic (List (Text × Value) × List Value)
  | [], _, bound => .ok (bound, [])
  | p :: ps, evaluate, bound =>
    match h : p.fallback with
    | none => bindFallbacks ps (fun q hq => evaluate q (.tail _ hq)) bound
    | some value => do
      let v ← evaluate p (.head _) value h bound
      let (bound, vs) ← bindFallbacks ps (fun q hq => evaluate q (.tail _ hq)) ((p.name, v) :: bound)
      .ok (bound, v :: vs)

/-- What a frame evaluates to, given what the frames that it enters evaluate to. -/
def step : (f : Frame) → (∀ g, Enters f g → Except Diagnostic g.task.Result) → Except Diagnostic f.task.Result
  -- items
  | ⟨S, X, R, .item _ (.declaration d)⟩, enter => do
    let v : Value ← enter ⟨S, X, R, .tokens S.length d.value⟩ .declaration
    .ok (⟨[⟨d.name, v.render, d.important⟩], []⟩ : Yield)
  | ⟨_, _, _, .item _ (.definition _)⟩, _ => .ok Yield.none
  | ⟨S, X, R, .item selectors (.call c)⟩, enter =>
    if (S.mixinsNamed c.name).isEmpty then .error ((Fault.undefinedMixin c.name).blame c.position)
    else if hx : c.name ∈ X then .error ((Fault.recursiveMixin c.name).blame c.position)
    else do
      let args : List Value ← c.args.attach.mapM fun ⟨value, hv⟩ =>
        enter ⟨S, X, R, .tokens S.length value⟩ (.argument hv)
      let mixins := (S.mixinsNamed c.name).filter (·.accepts args.length)
      if mixins.isEmpty then .error ((Fault.noMatchingMixin c.name).blame c.position)
      else
        let ys : List Yield ← mixins.attach.mapM fun ⟨m, hm⟩ =>
          enter ⟨S, c.name :: X, R, .mixin selectors args m⟩ (.call args (List.mem_filter.mp hm).1 hx)
        .ok (if c.important then (Yield.concat ys).important else Yield.concat ys)
  | ⟨S, X, R, .item selectors (.rule own body)⟩, enter => do
    let ys : List Yield ← body.attach.mapM fun ⟨i, hi⟩ =>
      enter ⟨.ofItems body :: S, X, R, .item (Css.nestSelectors selectors own) i⟩ (.rule hi)
    .ok (⟨[], (Yield.concat ys).underRule (Css.nestSelectors selectors own)⟩ : Yield)
  | ⟨S, X, R, .item selectors (.atRule name params body)⟩, enter => do
    let ys : List Yield ← body.attach.mapM fun ⟨i, hi⟩ =>
      enter ⟨.ofItems body :: S, X, R, .item selectors i⟩ (.atRule hi)
    .ok (⟨[], [(Yield.concat ys).underAtRule name params selectors]⟩ : Yield)
  | ⟨_, _, _, .item _ (.mixin ..)⟩, _ => .ok Yield.none
  -- mixins
  | ⟨S, X, R, .mixin selectors _ (.plain body)⟩, enter => do
    let ys : List Yield ← body.attach.mapM fun ⟨i, hi⟩ =>
      enter ⟨.ofItems body :: S, X, R, .item selectors i⟩ (.plain hi)
    .ok (Yield.concat ys)
  | ⟨S, X, R, .mixin selectors args (.parametric params body)⟩, enter => do
    let (bound, vs) ← bindFallbacks (params.drop args.length)
      (fun _ hp value hv bound => enter ⟨.ofValues bound :: S, X, R, .tokens (S.length + 1) value⟩
        (.fallback bound (List.mem_of_mem_drop hp) hv))
      (Mixin.boundArguments params args)
    let bound := ("arguments".toList, .list (args ++ vs) .space) :: bound
    let ys : List Yield ← body.attach.mapM fun ⟨i, hi⟩ =>
      enter ⟨.ofItems body :: .ofValues bound :: S, X, R, .item selectors i⟩ (.parametric bound hi)
    .ok (Yield.concat ys)
  -- values
  | ⟨S, X, R, .tokens depth value⟩, enter =>
    match h : Expr.ofTokens value with
    | .error d => .error d
    | .ok e => enter ⟨S, X, R, .expr depth e⟩ (.expression h)
  | ⟨_, _, _, .expr _ (.number value unit text)⟩, _ => .ok (Value.dimension ⟨value, unit, some text⟩)
  | ⟨_, _, _, .expr _ (.keyword text)⟩, _ => .ok (Value.keyword text)
  | ⟨S, X, R, .expr depth (.reference name p)⟩, enter => enter ⟨S, X, R, .reference depth name p⟩ .reference
  | ⟨S, X, R, .expr depth (.function name args)⟩, enter => do
    let inner : List Token.Piece ← args.attach.mapM fun ⟨t, ht⟩ =>
      if hk : t.kind = .atKeyword then do
        let v : Value ← enter ⟨S, X, R, .reference depth t.name t.position⟩ (.keyword ht hk)
        .ok (t.spaced, v.render)
      else .ok t.piece
    .ok (Value.keyword (name ++ '(' :: Token.joinPieces inner ++ [')']))
  | ⟨S, X, R, .expr depth (.negate e)⟩, enter => do
    let v : Value ← enter ⟨S, X, R, .expr depth e⟩ .negate
    .ok v.negate
  | ⟨S, X, R, .expr depth (.binary op a b p)⟩, enter => do
    let v : Value ← enter ⟨S, X, R, .expr depth a⟩ .left
    let w : Value ← enter ⟨S, X, R, .expr depth b⟩ .right
    Value.operate op p v w
  | ⟨S, X, R, .expr depth (.list es separator)⟩, enter => do
    let vs : List Value ← es.attach.mapM fun ⟨e, he⟩ => enter ⟨S, X, R, .expr depth e⟩ (.element he)
    .ok (Value.list vs separator)
  | ⟨S, X, R, .reference depth name p⟩, enter =>
    match h : Scopes.find? name (S.outermost depth) with
    | none => .error ((Fault.undefinedVariable name).blame p)
    | some (.resolved v, _) => .ok v
    | some (.pending, _) => .error ((Fault.recursiveVariable name).blame p)
    | some (.deferred value, home) =>
      if hr : (name, home.length - 1) ∈ R then .error ((Fault.recursiveVariable name).blame p)
      else enter ⟨S, X, (name, home.length - 1) :: R, .tokens home.length value⟩ (.definition h hr)

instance : WellFoundedRelation Frame := ⟨fun g f => Enters f g, wellFounded_enters⟩

/-- What a frame evaluates to. -/
def run (f : Frame) : Except Diagnostic f.task.Result := step f fun g _ => run g
termination_by f

theorem run_eq (f : Frame) : run f = step f fun g _ => run g := by
  rw [run]

variable {S : Scopes} {X : List Text} {R : List (Text × Nat)} {depth : Nat}

/-- How a frame looks up the variables of a value. -/
def lookup (S : Scopes) (X : List Text) (R : List (Text × Nat)) (depth : Nat) : Lookup :=
  fun name p => run ⟨S, X, R, .reference depth name p⟩

mutual

theorem run_expr (e : Expr) : run ⟨S, X, R, .expr depth e⟩ = e.evaluate (lookup S X R depth) := by
  rw [run_eq]
  cases e with
  | number | keyword | reference => rfl
  | function name args =>
    have hpiece : ∀ t, (if hk : t.kind = .atKeyword then do
        let v ← lookup S X R depth t.name t.position
        .ok (t.spaced, v.render)
        else .ok t.piece) = Expr.argumentPiece (lookup S X R depth) t := by
      intro t
      rw [Expr.argumentPiece]
      split <;> rfl
    rw [step, Expr.evaluate, mapM_attach fun t ht => hpiece t]
  | negate e => rw [step, run_expr e, Expr.evaluate]
  | binary op a b p => rw [step, run_expr a, run_expr b, Expr.evaluate]
  | list es separator =>
    rw [step, Expr.evaluate, ← run_exprs es, mapM_attach fun e he => rfl]

theorem run_exprs (es : List Expr) :
    (es.mapM fun e => (run ⟨S, X, R, .expr depth e⟩ : Except Diagnostic Value)) =
      Expr.evaluateAll (lookup S X R depth) es := by
  cases es with
  | nil => rfl
  | cons e es =>
    rw [List.mapM_cons, run_expr e, run_exprs es, Expr.evaluateAll]
    rfl

end

theorem run_tokens (value : List Token) : run ⟨S, X, R, .tokens depth value⟩ =
    Expr.ofTokens value >>= fun e => e.evaluate (lookup S X R depth) := by
  rw [run_eq, step]
  split
  · next h => rw [h]; rfl
  · next e h =>
    rw [h, run_expr]
    rfl

/-- Scopes with the definitions marked that are being resolved. Only what look-ups find counts. -/
inductive Marked (R : List (Text × Nat)) : Scopes → Scopes → Prop
  | nil : Marked R [] []
  | cons {s m : Scope} {S M : Scopes}
      (hs : ∀ name, (Scope.find? name m.bindings).map (·.1) =
        (Scope.find? name s.bindings).map fun q => q.1.mark ((name, S.length) ∈ R))
      (hM : Marked R S M) : Marked R (s :: S) (m :: M)

variable {M : Scopes}

/-- Nothing is marked while no definition is being resolved. -/
theorem Marked.refl (S : Scopes) : Marked [] S S := by
  induction S with
  | nil => exact .nil
  | cons s S ih =>
    refine .cons ?_ ih
    intro name
    cases h : Scope.find? name s.bindings with
    | none => rfl
    | some q =>
      obtain ⟨b, marked⟩ := q
      cases b <;> rfl

/-- What is being resolved in scopes further in makes no difference. -/
theorem Marked.push (h : Marked R S M) (name : Text) {level : Nat} (hlevel : S.length ≤ level) :
    Marked ((name, level) :: R) S M := by
  induction h with
  | nil => exact .nil
  | @cons s m S M hs hM ih =>
    rw [List.length_cons] at hlevel
    refine .cons ?_ (ih (by omega))
    intro other
    have hne : (other, S.length) ≠ (name, level) := by
      intro heq
      have := congrArg Prod.snd heq
      dsimp only at this
      omega
    rw [hs other]
    simp [hne]

theorem find?_marked {name : Text} {bs marked : List (Text × Binding)} {b : Binding}
    (h : Scope.find? name bs = some (b, marked)) (other : Text) :
    (Scope.find? other marked).map (·.1) =
      if other = name then some .pending else (Scope.find? other bs).map (·.1) := by
  induction bs generalizing marked with
  | nil => exact nomatch h
  | cons q bs ih =>
    obtain ⟨n, c⟩ := q
    rw [Scope.find?] at h
    split at h
    · next hn =>
      obtain ⟨rfl, rfl⟩ := Prod.mk.inj (Option.some.inj h)
      subst hn
      by_cases ho : other = n
      · simp [Scope.find?, ho]
      · simp [Scope.find?, ho, Ne.symm ho, Function.comp_def]
    · next hn =>
      obtain ⟨⟨b', m⟩, hm, heq⟩ := Option.map_eq_some_iff.mp h
      obtain ⟨rfl, rfl⟩ := Prod.mk.inj heq
      have hrest := ih hm
      by_cases ho : n = other
      · subst ho
        simp [Scope.find?, hn]
      · simpa [Scope.find?, ho, Function.comp_def] using hrest

theorem outermost_length (S : Scopes) : S.outermost S.length = S := by
  simp [Scopes.outermost]

theorem outermost_cons {s : Scope} (h : depth ≤ S.length) : Scopes.outermost depth (s :: S) = S.outermost depth := by
  rw [Scopes.outermost, Scopes.outermost, List.length_cons, Nat.succ_sub h, List.drop_succ_cons]

theorem outermost_outermost {inner : Nat} (h : inner ≤ (S.outermost depth).length) :
    (S.outermost depth).outermost inner = S.outermost inner := by
  simp only [Scopes.outermost, List.length_drop, List.drop_drop] at h ⊢
  congr 1
  omega

theorem Marked.find?_none {name : Text} (h : Marked R S M) (hfind : Scopes.find? name S = none) :
    Scopes.find? name M = none := by
  induction h with
  | nil => rfl
  | @cons s m S M hs hM ih =>
    rw [Scopes.find?] at hfind ⊢
    have hname := hs name
    cases hb : Scope.find? name s.bindings with
    | some q => simp [hb] at hfind
    | none =>
      rw [hb] at hfind hname
      rw [Option.map_eq_none_iff.mp hname]
      exact ih hfind

/-- A look-up finds the marked binding, and a definition leaves its scopes with that definition marked. -/
theorem Marked.find?_some {name : Text} {b : Binding} {home : Scopes} (h : Marked R S M)
    (hfind : Scopes.find? name S = some (b, home)) :
    home.length ≤ S.length ∧
      ∃ homeM, Scopes.find? name M = some (b.mark ((name, home.length - 1) ∈ R), homeM) ∧
        ∀ value, b = .deferred value →
          Marked ((name, home.length - 1) :: R) (S.outermost home.length) homeM := by
  induction h with
  | nil => exact nomatch hfind
  | @cons s m S M hs hM ih =>
    rw [Scopes.find?] at hfind ⊢
    have hname := hs name
    cases hb : Scope.find? name s.bindings with
    | none =>
      rw [hb] at hfind hname
      rw [Option.map_eq_none_iff.mp hname]
      obtain ⟨hle, homeM, hM', hmarked⟩ := ih hfind
      refine ⟨Nat.le_succ_of_le hle, homeM, hM', ?_⟩
      rw [outermost_cons hle]
      exact hmarked
    | some q =>
      obtain ⟨b', marked⟩ := q
      rw [hb] at hfind hname
      obtain ⟨rfl, rfl⟩ := Prod.mk.inj (Option.some.inj hfind)
      obtain ⟨⟨c, markedM⟩, hc, rfl⟩ := Option.map_eq_some_iff.mp hname
      rw [hc]
      refine ⟨Nat.le_refl _, _, rfl, ?_⟩
      rintro value rfl
      rw [show (({ s with bindings := marked } : Scope) :: S).length = (s :: S).length from rfl, outermost_length]
      refine .cons ?_ (hM.push name (Nat.le_refl _))
      intro other
      rw [find?_marked hc other]
      by_cases ho : other = name
      · simp [ho, hb, Binding.mark]
      · simp [ho, hs other]

/-- A frame looks up what the marked scopes hold, by induction on the definitions that are not marked. -/
theorem lookup_eq_resolve (h : Marked R (S.outermost depth) M) : lookup S X R depth = M.resolve := by
  induction hn : M.deferredCount using Nat.strongRecOn generalizing R depth M with
  | ind n ih =>
    subst hn
    funext name p
    rw [lookup, run_eq, step, Scopes.resolve_eq]
    split
    · next hfind => rw [h.find?_none hfind]
    · next v home hfind =>
      obtain ⟨-, homeM, hM, -⟩ := h.find?_some hfind
      rw [hM]
      rfl
    · next home hfind =>
      obtain ⟨-, homeM, hM, -⟩ := h.find?_some hfind
      rw [hM]
      rfl
    · next value home hfind =>
      obtain ⟨hle, homeM, hM, hmarked⟩ := h.find?_some hfind
      rw [hM]
      split
      · next hr => simp [hr, Binding.mark]
      · next hr =>
        rw [run_tokens]
        rw [show Binding.mark (decide ((name, home.length - 1) ∈ R)) (.deferred value) = .deferred value by
          simp [hr, Binding.mark]] at hM ⊢
        have hinner := hmarked value rfl
        rw [outermost_outermost hle] at hinner
        rw [ih _ (Scopes.deferredCount_find? hM) hinner rfl]

theorem run_value (value : List Token) :
    run ⟨S, X, [], .tokens depth value⟩ = (S.outermost depth).evaluate value := by
  rw [run_tokens, lookup_eq_resolve (.refl _), Scopes.evaluate]

theorem bindFallbacks_eq (ps : List Parameter)
    (evaluate : ∀ p ∈ ps, ∀ value, p.fallback = some value → List (Text × Value) → Except Diagnostic Value)
    (h : ∀ p hp value hv bound, evaluate p hp value hv bound = Scopes.evaluate (.ofValues bound :: S) value)
    (bound : List (Text × Value)) :
    Mixin.bindFallbacks S (.ofValues bound) ps =
      (bindFallbacks ps evaluate bound).map fun q => (.ofValues q.1, q.2) := by
  induction ps generalizing bound with
  | nil => rfl
  | cons p ps ih =>
    rw [Mixin.bindFallbacks, bindFallbacks]
    split
    · next hnone =>
      split
      · exact ih _ (fun q hq => h q (.tail _ hq)) bound
      · next value hsome => simp [hnone] at hsome
    · next value hsome =>
      split
      · next hnone => simp [hnone] at hsome
      · next value' hsome' =>
        obtain rfl : value = value' := Option.some.inj (hsome.symm.trans hsome')
        rw [h]
        cases Scopes.evaluate (.ofValues bound :: S) value with
        | error d => rfl
        | ok v =>
          rw [ok_bind, ok_bind, Scope.ofValues_bind, ih _ fun q hq => h q (.tail _ hq)]
          cases bindFallbacks ps (fun q hq => evaluate q (.tail _ hq)) ((p.name, v) :: bound) <;> rfl

/-- What a frame of the given task means when only the names `callable` may be called. -/
def meaning (callable : List Text) (S : Scopes) : (t : Task) → Except Diagnostic t.Result
  | .item selectors i => Item.yield (expand callable) S selectors i
  | .mixin selectors args m => do Item.yieldAll (expand callable) (← m.bodyScopes S args) selectors m.body
  | .tokens depth value => (S.outermost depth).evaluate value
  | .expr depth e => e.evaluate (S.outermost depth).resolve
  | .reference depth name p => (S.outermost depth).resolve name p

theorem without_unguarded (name : Text) (names : List Text) :
    without name (unguarded X names) = unguarded (name :: X) names := by
  simp [without, unguarded, List.filter_filter]

variable {callable names : List Text} {selectors : List Text}

theorem run_plain {args : List Value} {body : List Item}
    (h : ∀ i ∈ body, run ⟨.ofItems body :: S, X, [], .item selectors i⟩ =
      Item.yield (expand callable) (.ofItems body :: S) selectors i) :
    run ⟨S, X, [], .mixin selectors args (.plain body)⟩ =
      Item.yieldAll (expand callable) (.ofItems body :: S) selectors body := by
  rw [run_eq, step, mapM_attach h, Item.yieldAll_eq_mapM]
  cases body.mapM (Item.yield (expand callable) (.ofItems body :: S) selectors) <;> rfl

theorem run_parametric {args : List Value} {params : List Parameter} {body : List Item}
    (h : ∀ bound, ∀ i ∈ body, run ⟨.ofItems body :: .ofValues bound :: S, X, [], .item selectors i⟩ =
      Item.yield (expand callable) (.ofItems body :: .ofValues bound :: S) selectors i) :
    run ⟨S, X, [], .mixin selectors args (.parametric params body)⟩ =
      Mixin.parameterScope S params args >>= fun scope =>
        Item.yieldAll (expand callable) (.ofItems body :: scope :: S) selectors body := by
  have hfallbacks := bindFallbacks_eq (S := S) (params.drop args.length)
    (fun _ _ value _ bound => run ⟨.ofValues bound :: S, X, [], .tokens (S.length + 1) value⟩)
    (fun p hp value hv bound => by rw [run_value, ← List.length_cons, outermost_length])
    (Mixin.boundArguments params args)
  rw [run_eq, step, Mixin.parameterScope, Mixin.bindArguments_eq, hfallbacks]
  generalize bindFallbacks (params.drop args.length) _ (Mixin.boundArguments params args) = r
  cases r with
  | error d => rfl
  | ok q =>
    obtain ⟨bound, vs⟩ := q
    rw [ok_bind]
    dsimp only
    rw [mapM_attach fun i hi => h _ i hi]
    show _ = Item.yieldAll (expand callable)
      (.ofItems body :: .ofValues (("arguments".toList, .list (args ++ vs) .space) :: bound) :: S) selectors body
    rw [Item.yieldAll_eq_mapM]
    cases body.mapM (Item.yield (expand callable) _ selectors) <;> rfl

theorem run_call {c : Call} (hname : ∀ m ∈ S.mixinsNamed c.name, c.name ∈ names)
    (h : c.name ∉ X → ∀ args, ∀ m ∈ S.mixinsNamed c.name,
      run ⟨S, c.name :: X, [], .mixin selectors args m⟩ =
        meaning (unguarded (c.name :: X) names) S (.mixin selectors args m)) :
    run ⟨S, X, [], .item selectors (.call c)⟩ = expand (unguarded X names) S selectors c := by
  have hvalue : ∀ value, run ⟨S, X, [], .tokens S.length value⟩ = S.evaluate value := by
    intro value
    rw [run_value, outermost_length]
  rw [run_eq, step, mapM_attach fun value hv => hvalue value, expand_eq]
  by_cases hm : (S.mixinsNamed c.name).isEmpty
  · rw [if_pos hm, if_pos hm]
  · obtain ⟨m, hmixin⟩ := List.exists_mem_of_ne_nil _ (mt List.isEmpty_iff.mpr hm)
    rw [if_neg hm, if_neg hm]
    by_cases hx : c.name ∈ X
    · rw [dif_pos hx, if_pos (by simp [unguarded, hx])]
    · rw [dif_neg hx, if_neg (by simp [unguarded, hx, hname m hmixin])]
      cases c.args.mapM S.evaluate with
      | error d => rfl
      | ok args =>
        rw [ok_bind, ok_bind, without_unguarded]
        simp only [Mixin.yieldAll_eq_mapM]
        split
        · rfl
        · rw [mapM_attach fun m hm => h hx args m (List.mem_filter.mp hm).1]
          simp only [meaning]
          cases ((S.mixinsNamed c.name).filter (·.accepts args.length)).mapM fun m : Mixin => do
            Item.yieldAll (expand (unguarded (c.name :: X) names)) (← m.bodyScopes S args) selectors m.body <;> rfl

/-- A frame that is not resolving a definition evaluates to what it means, by induction on the chains of entries. -/
theorem run_eq_meaning {f : Frame} (hf : f.Within names) (hr : f.resolving = []) :
    run f = meaning (unguarded f.expanding names) f.scopes f.task := by
  induction f using wellFounded_enters.induction with
  | _ f ih =>
    obtain ⟨S, X, R, task⟩ := f
    obtain rfl : R = [] := hr
    have hinner : ∀ g, Enters ⟨S, X, [], task⟩ g → g.resolving = [] →
        run g = meaning (unguarded g.expanding names) g.scopes g.task :=
      fun g he hg => ih g he (hf.enters he) hg
    cases task with
    | tokens depth value => exact run_value value
    | expr depth e =>
      rw [run_expr, lookup_eq_resolve (.refl _)]
      rfl
    | reference depth name p => exact congrFun (congrFun (lookup_eq_resolve (.refl _)) name) p
    | mixin selectors args m =>
      cases m with
      | plain body => exact run_plain fun i hi => hinner _ (.plain hi) rfl
      | parametric params body =>
        have hbody : ∀ bound, ∀ i ∈ body,
            run ⟨.ofItems body :: .ofValues bound :: S, X, [], .item selectors i⟩ =
              Item.yield (expand (unguarded X names)) (.ofItems body :: .ofValues bound :: S) selectors i :=
          fun bound i hi => hinner _ (.parametric bound hi) rfl
        rw [run_parametric hbody]
        simp only [meaning, Mixin.bodyScopes, Mixin.body]
        cases Mixin.parameterScope S params args <;> rfl
    | item selectors i =>
      cases i with
      | declaration d =>
        rw [run_eq, step, run_value, outermost_length]
        simp only [meaning, Item.yield, Declaration.evaluate]
        cases S.evaluate d.value <;> rfl
      | call c =>
        refine run_call ?_ fun hx args m hm => hinner _ (.call args hm hx) rfl
        intro m hm
        obtain ⟨s, hs, hmixin⟩ := Scopes.exists_of_mem_mixinsNamed hm
        exact (hf.scopes s hs _ _ hmixin).1
      | rule own body =>
        rw [run_eq, step, mapM_attach fun i hi => hinner _ (.rule hi) rfl]
        simp only [meaning, Item.yield, Item.yieldAll_eq_mapM]
        cases body.mapM (Item.yield (expand (unguarded X names)) (.ofItems body :: S)
          (Css.nestSelectors selectors own)) <;> rfl
      | atRule name params body =>
        rw [run_eq, step, mapM_attach fun i hi => hinner _ (.atRule hi) rfl]
        simp only [meaning, Item.yield, Item.yieldAll_eq_mapM]
        cases body.mapM (Item.yield (expand (unguarded X names)) (.ofItems body :: S) selectors) <;> rfl
      | definition d | mixin name params body =>
        rw [run_eq]
        rfl

/-- What a statement of a sheet evaluates to. -/
def nodesOf (s : Sheet) : Statement → Except Diagnostic (List Css.Node)
  | .directive d => .ok [.directive d.name d.params]
  | .call c => do
    let y : Yield ← run (.start s (.call c))
    if y.properties.isEmpty then .ok y.nodes else .error (Fault.propertyOutsideRule.blame c.position)
  | .definition _ => .ok []
  | .rule selectors body => (run (.start s (.rule selectors body))).map Yield.nodes
  | .atRule name params body => (run (.start s (.atRule name params body))).map Yield.nodes
  | .mixin .. => .ok []

/-- What a sheet evaluates to. -/
def evaluate (s : Sheet) : Except Diagnostic (List Css.Node) := (s.mapM (nodesOf s)).map List.flatten

theorem run_start {s : Sheet} {i : Item} (hi : i ∈ s.items) : run (.start s i) =
    Item.yield (expand (Item.mixinNamesAll s.items)) [.ofItems s.items] [] i := by
  have hwithin := (Reachable.start hi).sound.within
  have hnames : unguarded [] (Item.mixinNamesAll s.items) = Item.mixinNamesAll s.items :=
    List.filter_eq_self.mpr (by simp)
  rw [run_eq_meaning hwithin rfl]
  simp only [meaning, Frame.start, hnames]

theorem nodesOf_eq {s : Sheet} {st : Statement} (hst : st ∈ s) :
    nodesOf s st = Sheet.nodesOf (expand (Item.mixinNamesAll s.items)) [.ofItems s.items] st := by
  have hitems : ∀ i, st.toItem? = some i → i ∈ s.items := fun i hi => List.mem_filterMap.mpr ⟨st, hst, hi⟩
  cases st with
  | call c => rw [nodesOf, Sheet.nodesOf, run_start (hitems _ rfl), Item.yield]
  | rule selectors body => rw [nodesOf, Sheet.nodesOf, run_start (hitems _ rfl)]
  | atRule name params body => rw [nodesOf, Sheet.nodesOf, run_start (hitems _ rfl)]
  | _ => rfl

theorem evaluate_eq (s : Sheet) : evaluate s = s.evaluate := by
  have hmap : s.mapM (nodesOf s) =
      s.mapM (Sheet.nodesOf (expand (Item.mixinNamesAll s.items)) [.ofItems s.items]) := by
    rw [← mapM_attach (f := fun st => nodesOf s st.1) fun st _ => rfl, mapM_attach fun st hst => nodesOf_eq hst]
  rw [evaluate, hmap, Sheet.evaluate]

end Guards

open Guards

/-- Evaluation ends: no chain of entries is endless, a frame evaluates to what the frames that it enters make of it,
and a sheet to what its frames evaluate to. In all frames that it comes to, no mixin is being expanded twice and no
definition resolved twice. The scopes stay as they are while a definition is being resolved. An entry that pushes
neither a mixin nor a definition descends. -/
theorem Sheet.evaluate_guarded (s : Sheet) :
    (WellFounded fun g f : Frame => Enters f g) ∧ (∀ f, run f = step f fun g _ => run g) ∧
      Guards.evaluate s = s.evaluate ∧
      ∀ f, Reachable s f →
        (f.expanding.Nodup ∧ f.expanding ⊆ Item.mixinNamesAll s.items ∧
          f.expanding.length ≤ (Item.mixinNamesAll s.items).eraseDups.length) ∧
        f.resolving.Nodup ∧
        ∀ g, Enters f g → (g.resolving ≠ [] → g.scopes = f.scopes) ∧
          ((∃ name, name ∉ f.expanding ∧ g.expanding = name :: f.expanding ∧ g.resolving = f.resolving) ∨
            (∃ key, key ∉ f.resolving ∧ g.resolving = key :: f.resolving ∧ g.expanding = f.expanding) ∨
            (g.expanding = f.expanding ∧ g.resolving = f.resolving ∧ g.task.Below f.task)) := by
  refine ⟨wellFounded_enters, run_eq, evaluate_eq s, ?_⟩
  intro f hf
  have hsound := hf.sound
  have hdistinct : f.expanding ⊆ (Item.mixinNamesAll s.items).eraseDups :=
    fun n hn => List.mem_eraseDups.mpr (hsound.expanding_subset hn)
  refine ⟨⟨hsound.expanding_nodup, hsound.expanding_subset, ?_⟩, hsound.resolving_nodup, ?_⟩
  · exact hsound.expanding_nodup.length_le_of_subset hdistinct
  · intro g he
    exact ⟨he.scopes_eq hsound, he.push_or_below⟩

/-- A mixin that calls itself is entered once, and then its name is on the stack. -/
theorem Sheet.evaluate_guarded_self_call :
    let call : Item := .call ⟨".m".toList, [], false, ⟨1, 6⟩⟩
    let s : Sheet := [.rule [".m".toList] [call]]
    let f : Frame :=
      ⟨[.ofItems [call], .ofItems s.items], [".m".toList], [], .mixin [".m".toList] [] (.plain [call])⟩
    Reachable s f ∧ f.expanding.Nodup ∧ f.expanding.length ≤ 1 ∧ f.resolving.Nodup := by
  intro call s f
  have hrule : Reachable s ⟨[.ofItems [call], .ofItems s.items], [], [], .item [".m".toList] call⟩ :=
    .enter (.start (.head _)) (.rule (.head _))
  have hf : Reachable s f := .enter hrule (.call [] (.head _) (by simp))
  have hguarded := (evaluate_guarded s).2.2.2 f hf
  exact ⟨hf, hguarded.1.1, hguarded.1.2.2, hguarded.2.1⟩

end LessCss
