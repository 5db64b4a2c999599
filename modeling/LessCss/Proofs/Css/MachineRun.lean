import LessCss.Proofs.Css.Lookups
import LessCss.Proofs.Css.Machine
/-!
The machine evaluates sheets, and leaves its memory as it was.

A memory stands for the scopes and the guard stacks of a frame. From it the machine comes to what the frame evaluates
to, with the same memory, and what has been collected before stays at the front (`agrees`). The proof follows the
chains of frames. So an item leaves no trace but what it adds, and a statement of a sheet adds the same nodes whatever
statements have been evaluated before it (`Sheet.evaluate_framed`).
-/
namespace LessCss

namespace Machine

open Guards (Frame Task Enters run run_eq)

/-- The memory that stands for scopes and guard stacks. -/
def Memory.of (S : Scopes) (X : List Text) (R : List (Text × Nat)) : Memory :=
  ⟨S.map (·.bindings), S.map (·.mixins), R, X⟩

variable {S : Scopes} {X : List Text} {R : List (Text × Nat)}

theorem exists_scopes {bindings : List (List (Text × Binding))} {mixins : List (List (Text × Mixin))}
    (h : bindings.length = mixins.length) :
    ∃ S : Scopes, S.map (·.bindings) = bindings ∧ S.map (·.mixins) = mixins := by
  induction bindings generalizing mixins with
  | nil =>
    obtain rfl := List.length_eq_zero_iff.mp h.symm
    exact ⟨[], rfl, rfl⟩
  | cons found bindings ih =>
    obtain ⟨own, mixins, rfl⟩ := List.exists_cons_of_length_eq_add_one h.symm
    obtain ⟨S, rfl, rfl⟩ := ih (Nat.succ.inj h)
    exact ⟨⟨found, own⟩ :: S, rfl, rfl⟩

/-- A memory whose stacks of variables and of mixins are equally long stands for scopes. -/
theorem Memory.exists_of (σ : Memory) (h : σ.bindings.length = σ.mixins.length) :
    ∃ S, σ = .of S σ.expanding σ.resolving := by
  obtain ⟨S, hbindings, hmixins⟩ := exists_scopes h
  refine ⟨S, ?_⟩
  rw [of, hbindings, hmixins]

theorem Memory.find?_of (name : Text) (S : Scopes) :
    find? name (S.map (·.bindings)) = (Scopes.find? name S).map fun q => (q.1, q.2.length - 1) := by
  induction S with
  | nil => rfl
  | cons s S ih =>
    rw [List.map_cons, find?, Scopes.find?]
    cases Scope.find? name s.bindings with
    | none => exact ih
    | some q => simp

theorem Memory.find?_outermost (name : Text) (depth : Nat) (S : Scopes) :
    find? name ((Memory.of S X R).bindings.drop ((Memory.of S X R).depth - depth)) =
      (Scopes.find? name (S.outermost depth)).map fun q => (q.1, q.2.length - 1) := by
  rw [← find?_of, Scopes.outermost, List.map_drop, of, Memory.depth, List.length_map]

theorem Memory.mixinsNamed_of (name : Text) (S : Scopes) :
    mixinsNamed name (S.map (·.mixins)) = S.mixinsNamed name := by
  induction S with
  | nil => rfl
  | cons s S ih =>
    have hs : Scope.mixinsNamed ⟨[], s.mixins⟩ name = s.mixinsNamed name := rfl
    rw [List.map_cons, mixinsNamed, hs, ih, Scopes.mixinsNamed, Scopes.mixinsNamed, List.map_cons, List.find?_cons]
    cases (s.mixinsNamed name).isEmpty <;> rfl

section Loops

variable {α β : Type} {σ : Memory}

/-- A loop that collects what each round adds. -/
theorem Runs.fold {f : Yield → α → Code Yield} {g : α → Except Diagnostic Yield} {xs : List α}
    (h : ∀ x ∈ xs, ∀ y, Runs σ (f y x) ((g x).map fun z => (σ, y ++ z))) (collected : Yield) :
    Runs σ (xs.foldlM f collected) ((xs.mapM g).map fun ys => (σ, collected ++ Yield.concat ys)) := by
  induction xs generalizing collected with
  | nil =>
    show Runs σ (.done collected) (.ok (σ, collected ++ .none))
    rw [Yield.append_none]
    exact .done σ collected
  | cons x xs ih =>
    have hx := h x List.mem_cons_self collected
    have hxs := fun y => ih (fun x hx => h x (.tail _ hx)) y
    rw [List.foldlM_cons, List.mapM_cons, map_bind]
    refine hx.bind fun z => ?_
    have hrest := hxs (collected ++ z)
    simp only [Yield.append_assoc] at hrest
    rw [map_bind]
    exact hrest

theorem Runs.mapM {f : α → Code β} {g : α → Except Diagnostic β} {xs : List α}
    (h : ∀ x ∈ xs, Runs σ (f x) ((g x).map fun b => (σ, b))) :
    Runs σ (xs.mapM f) ((xs.mapM g).map fun bs => (σ, bs)) := by
  induction xs with
  | nil => exact .done σ []
  | cons x xs ih =>
    have hx := h x List.mem_cons_self
    have hxs := ih fun x hx => h x (.tail _ hx)
    rw [List.mapM_cons, List.mapM_cons, map_bind]
    refine hx.bind fun b => ?_
    rw [map_bind]
    exact hxs.bind fun bs => .done σ (b :: bs)

end Loops

theorem runs_hoistItem (s : Scope) (i : Item) : Runs (.of (s :: S) X R) (hoistItem i)
    (.ok (.of (⟨(Scope.binding? i).toList ++ s.bindings, s.mixins ++ (Scope.mixin? i).toList⟩ :: S) X R, ())) := by
  have hnone : Runs (.of (s :: S) X R) (.done ()) (.ok (.of (⟨s.bindings, s.mixins ++ []⟩ :: S) X R, ())) := by
    rw [List.append_nil]
    exact .done _ _
  cases i with
  | definition d =>
    have h := Runs.change (.of (s :: S) X R) (.define d.name (.deferred d.value))
    show Runs _ _ (.ok (.of (⟨(d.name, .deferred d.value) :: s.bindings, s.mixins ++ []⟩ :: S) X R, ()))
    rw [List.append_nil]
    exact h
  | mixin name params body => exact Runs.change (.of (s :: S) X R) (.register name (.parametric params body))
  | rule selectors body =>
    rcases selectors with _ | ⟨selector, _ | ⟨second, others⟩⟩
    · exact hnone
    · rw [hoistItem, Scope.mixin?]
      split
      · exact Runs.change (.of (s :: S) X R) (.register selector (.plain body))
      · exact hnone
    · exact hnone
  | declaration | call | atRule => exact hnone

theorem runs_hoist (s : Scope) (is : List Item) : Runs (.of (s :: S) X R) (hoist is)
    (.ok (.of (⟨(is.filterMap Scope.binding?).reverse ++ s.bindings, s.mixins ++ is.filterMap Scope.mixin?⟩ :: S) X R,
      ())) := by
  induction is generalizing s with
  | nil =>
    show Runs _ _ (.ok (.of (⟨s.bindings, s.mixins ++ []⟩ :: S) X R, ()))
    rw [List.append_nil]
    exact .done _ _
  | cons i is ih =>
    refine (runs_hoistItem s i).bind_ok ?_
    have hrest := ih ⟨(Scope.binding? i).toList ++ s.bindings, s.mixins ++ (Scope.mixin? i).toList⟩
    have hbindings : ((i :: is).filterMap Scope.binding?).reverse ++ s.bindings =
        (is.filterMap Scope.binding?).reverse ++ ((Scope.binding? i).toList ++ s.bindings) := by
      cases hb : Scope.binding? i <;> simp [hb]
    have hmixins : s.mixins ++ (i :: is).filterMap Scope.mixin? =
        s.mixins ++ (Scope.mixin? i).toList ++ is.filterMap Scope.mixin? := by
      cases hm : Scope.mixin? i <;> simp [hm]
    rw [hbindings, hmixins]
    exact hrest

/-- Hoisting in a new scope makes the scope of the block. -/
theorem runs_hoist_new (is : List Item) :
    Runs (.of (.empty :: S) X R) (hoist is) (.ok (.of (.ofItems is :: S) X R, ())) := by
  have h := runs_hoist (S := S) (X := X) (R := R) .empty is
  rw [Scope.empty, List.append_nil] at h
  exact h

/-- The machine agrees with what a frame evaluates to. -/
def Agrees (S : Scopes) (X : List Text) (R : List (Text × Nat)) : Task → Prop
  | .item selectors i => ∀ collected, Runs (.of S X R) (enter (.item selectors i collected))
      ((run ⟨S, X, R, .item selectors i⟩ : Except Diagnostic Yield).map fun y => (.of S X R, collected ++ y))
  | .mixin selectors args m => ∀ collected, Runs (.of S X R) (enter (.mixin selectors args m collected))
      ((run ⟨S, X, R, .mixin selectors args m⟩ : Except Diagnostic Yield).map fun y => (.of S X R, collected ++ y))
  | .tokens depth value => Runs (.of S X R) (enter (.tokens depth value))
      ((run ⟨S, X, R, .tokens depth value⟩ : Except Diagnostic Value).map fun v => (.of S X R, v))
  | .expr depth e => Runs (.of S X R) (enter (.expr depth e))
      ((run ⟨S, X, R, .expr depth e⟩ : Except Diagnostic Value).map fun v => (.of S X R, v))
  | .reference depth name p => Runs (.of S X R) (enter (.reference depth name p))
      ((run ⟨S, X, R, .reference depth name p⟩ : Except Diagnostic Value).map fun v => (.of S X R, v))

variable {selectors : List Text} {body : List Item}

/-- What the items of a block yield together. -/
def yields (S : Scopes) (X : List Text) (R : List (Text × Nat)) (selectors : List Text) (body : List Item) :
    Except Diagnostic Yield :=
  (body.mapM fun i => (run ⟨S, X, R, .item selectors i⟩ : Except Diagnostic Yield)).map Yield.concat

theorem runs_block (h : ∀ i ∈ body, Agrees (.ofItems body :: S) X R (.item selectors i)) (collected : Yield) :
    Runs (.of (.empty :: S) X R) (block selectors body collected)
      ((yields (.ofItems body :: S) X R selectors body).map fun y => (.of (.ofItems body :: S) X R, collected ++ y)) := by
  refine (runs_hoist_new body).bind_ok ?_
  rw [yields, map_map]
  exact Runs.fold h collected

/-- A block in a scope of its own. -/
theorem runs_scope (h : ∀ i ∈ body, Agrees (.ofItems body :: S) X R (.item selectors i)) (collected : Yield)
    {α : Type} (finish : Yield → α) :
    Runs (.of S X R)
      (do
        apply .pushScope
        let y ← block selectors body collected
        apply .popScope
        pure (finish y))
      ((yields (.ofItems body :: S) X R selectors body).map fun y => (.of S X R, finish (collected ++ y))) := by
  refine .apply ?_
  have hblock : Runs (Change.pushScope.apply (.of S X R)) _ _ := runs_block h collected
  exact hblock.bind_map fun y => .apply (.done _ _)

theorem runs_rule {around own : List Text}
    (h : ∀ i ∈ body, Agrees (.ofItems body :: S) X R (.item (Css.nestSelectors around own) i)) :
    Runs (.of S X R) (enter (.rule around own body))
      ((yields (.ofItems body :: S) X R (Css.nestSelectors around own) body).map fun y =>
        (.of S X R, y.underRule (Css.nestSelectors around own))) :=
  .enter (runs_scope h .none (Yield.underRule (Css.nestSelectors around own)))

theorem runs_atRule {name params : Text} (h : ∀ i ∈ body, Agrees (.ofItems body :: S) X R (.item selectors i)) :
    Runs (.of S X R) (enter (.atRule name params selectors body))
      ((yields (.ofItems body :: S) X R selectors body).map fun y =>
        (.of S X R, y.underAtRule name params selectors)) :=
  .enter (runs_scope h .none (Yield.underAtRule name params selectors))

theorem run_rule (own : List Text) : (run ⟨S, X, R, .item selectors (.rule own body)⟩ : Except Diagnostic Yield) =
    (yields (.ofItems body :: S) X R (Css.nestSelectors selectors own) body).map fun y =>
      ⟨[], y.underRule (Css.nestSelectors selectors own)⟩ := by
  rw [run_eq, Guards.step, mapM_attach fun i _ => rfl, yields]
  cases body.mapM fun i => run ⟨.ofItems body :: S, X, R, .item (Css.nestSelectors selectors own) i⟩ <;> rfl

theorem run_atRule (name params : Text) :
    (run ⟨S, X, R, .item selectors (.atRule name params body)⟩ : Except Diagnostic Yield) =
      (yields (.ofItems body :: S) X R selectors body).map fun y => ⟨[], [y.underAtRule name params selectors]⟩ := by
  rw [run_eq, Guards.step, mapM_attach fun i _ => rfl, yields]
  cases body.mapM fun i => run ⟨.ofItems body :: S, X, R, .item selectors i⟩ <;> rfl

theorem append_nodes (y : Yield) (ns : List Css.Node) : y ++ ⟨[], ns⟩ = ⟨y.properties, y.nodes ++ ns⟩ := by
  show (⟨y.properties ++ [], y.nodes ++ ns⟩ : Yield) = _
  rw [List.append_nil]

theorem append_properties (y : Yield) (ps : List Css.Property) : y ++ ⟨ps, []⟩ = ⟨y.properties ++ ps, y.nodes⟩ := by
  show (⟨y.properties ++ ps, y.nodes ++ []⟩ : Yield) = _
  rw [List.append_nil]

theorem agrees_rule {own : List Text}
    (h : ∀ i ∈ body, Agrees (.ofItems body :: S) X R (.item (Css.nestSelectors selectors own) i)) :
    Agrees S X R (.item selectors (.rule own body)) := by
  intro collected
  rw [run_rule, map_map]
  refine .enter ((runs_rule h).bind_map fun y => ?_)
  rw [append_nodes]
  exact .done _ _

theorem agrees_atRule {name params : Text} (h : ∀ i ∈ body, Agrees (.ofItems body :: S) X R (.item selectors i)) :
    Agrees S X R (.item selectors (.atRule name params body)) := by
  intro collected
  rw [run_atRule, map_map]
  refine .enter ((runs_atRule h).bind_map fun y => ?_)
  rw [append_nodes]
  exact .done _ _

theorem depth_of (S : Scopes) : (Memory.of S X R).depth = S.length := List.length_map _

theorem agrees_declaration {d : Declaration} (h : Agrees S X R (.tokens S.length d.value)) :
    Agrees S X R (.item selectors (.declaration d)) := by
  intro collected
  have hvalue : Runs _ _ ((run ⟨S, X, R, .tokens S.length d.value⟩ : Except Diagnostic Value).map _) := h
  rw [run_eq, Guards.step]
  refine .enter (.memory ?_)
  rw [depth_of, map_bind]
  refine hvalue.bind fun v => ?_
  show Runs _ _ (.ok (_, collected ++ (⟨[_], []⟩ : Yield)))
  rw [append_properties]
  exact .done _ _

/-- Properties are marked from the first one on that a call adds. -/
theorem markFrom_append (y z : Yield) : markFrom y.properties.length (y ++ z) = y ++ z.important := by
  obtain ⟨ps, ns⟩ := y
  obtain ⟨qs, ms⟩ := z
  show (⟨(ps ++ qs).take ps.length ++ (Yield.important ⟨(ps ++ qs).drop ps.length, []⟩).properties, ns ++ ms⟩ : Yield) =
    ⟨ps ++ (Yield.important ⟨qs, ms⟩).properties, ns ++ ms⟩
  rw [List.take_left, List.drop_left]
  rfl

theorem runs_call {c : Call} (hargs : ∀ value ∈ c.args, Agrees S X R (.tokens S.length value))
    (hmixins : c.name ∉ X → ∀ args, ∀ m ∈ S.mixinsNamed c.name, Agrees S (c.name :: X) R (.mixin selectors args m))
    (collected : Yield) :
    Runs (.of S X R) (enter (.call selectors c collected))
      ((run ⟨S, X, R, .item selectors (.call c)⟩ : Except Diagnostic Yield).map fun y =>
        (.of S X R, collected ++ y)) := by
  have hmapM : Runs (.of S X R) (c.args.mapM fun value => enter (.tokens S.length value)) _ := Runs.mapM hargs
  rw [run_eq, Guards.step, mapM_attach fun value _ => rfl]
  refine .enter (.memory ?_)
  rw [depth_of, Memory.of, Memory.mixinsNamed_of]
  simp only [List.contains_iff_mem]
  split
  · exact .fail _ _
  · split
    · exact .fail _ _
    · next hx =>
      rw [map_bind]
      refine hmapM.bind fun args => ?_
      split
      · exact .fail _ _
      · rw [mapM_attach (g := fun m => (run ⟨S, c.name :: X, R, .mixin selectors args m⟩ : Except Diagnostic Yield))
          fun m _ => rfl, map_bind]
        refine .apply ?_
        have hfold : Runs (.of S (c.name :: X) R)
            (((S.mixinsNamed c.name).filter (·.accepts args.length)).foldlM _ collected) _ :=
          Runs.fold (fun m hm => hmixins hx args m (List.mem_filter.mp hm).1) collected
        refine hfold.bind fun ys => .apply ?_
        rw [markFrom_append, ← apply_ite (collected ++ ·)]
        exact .done _ _

theorem agrees_plain {args : List Value} (h : ∀ i ∈ body, Agrees (.ofItems body :: S) X R (.item selectors i)) :
    Agrees S X R (.mixin selectors args (.plain body)) := by
  intro collected
  have hscope := runs_scope h collected id
  have hrun : (run ⟨S, X, R, .mixin selectors args (.plain body)⟩ : Except Diagnostic Yield) =
      yields (.ofItems body :: S) X R selectors body := by
    rw [run_eq, Guards.step, mapM_attach fun i _ => rfl, yields]
    cases body.mapM fun i => run ⟨.ofItems body :: S, X, R, .item selectors i⟩ <;> rfl
  rw [hrun]
  exact .enter hscope

theorem runs_bindArguments (ps : List (Parameter × Value)) (bound : List (Text × Value)) :
    Runs (.of (.ofValues bound :: S) X R) (bindArguments ps)
      (.ok (.of (.ofValues ((ps.map fun (p, v) => (p.name, v)).reverse ++ bound) :: S) X R, ())) := by
  induction ps generalizing bound with
  | nil => exact .done _ _
  | cons p ps ih =>
    obtain ⟨p, v⟩ := p
    refine .apply ?_
    have hrest := ih ((p.name, v) :: bound)
    rw [List.map_cons, List.reverse_cons, List.append_assoc]
    exact hrest

theorem runs_bindFallbacks (ps : List Parameter)
    (h : ∀ p ∈ ps, ∀ value, p.fallback = some value → ∀ bound,
      Agrees (.ofValues bound :: S) X R (.tokens (S.length + 1) value)) (bound : List (Text × Value)) :
    Runs (.of (.ofValues bound :: S) X R) (bindFallbacks ps)
      ((Guards.bindFallbacks ps
        (fun _ _ value _ bound => run ⟨.ofValues bound :: S, X, R, .tokens (S.length + 1) value⟩) bound).map
          fun q => (.of (.ofValues q.1 :: S) X R, q.2)) := by
  induction ps generalizing bound with
  | nil => exact .done _ _
  | cons p ps ih =>
    have hps := ih fun q hq => h q (.tail _ hq)
    rw [bindFallbacks, Guards.bindFallbacks]
    split
    · next hnone =>
      split
      · exact hps bound
      · next value hsome => cases hnone.symm.trans hsome
    · next value hsome =>
      split
      · next hnone => cases hnone.symm.trans hsome
      · next value' hsome' =>
        obtain rfl : value = value' := Option.some.inj (hsome.symm.trans hsome')
        refine .memory ?_
        rw [depth_of, List.length_cons]
        have hvalue : Runs _ _ ((run ⟨.ofValues bound :: S, X, R, .tokens (S.length + 1) value⟩ :
            Except Diagnostic Value).map _) := h p (.head _) value hsome bound
        rw [map_bind]
        refine hvalue.bind fun v => .apply ?_
        have hrest : Runs (.of (.ofValues ((p.name, v) :: bound) :: S) X R) _ _ := hps ((p.name, v) :: bound)
        rw [map_bind]
        exact hrest.bind fun q => .done _ _

theorem agrees_parametric {args : List Value} {params : List Parameter}
    (hfallbacks : ∀ p ∈ params, ∀ value, p.fallback = some value → ∀ bound,
      Agrees (.ofValues bound :: S) X R (.tokens (S.length + 1) value))
    (hbody : ∀ bound, ∀ i ∈ body, Agrees (.ofItems body :: .ofValues bound :: S) X R (.item selectors i)) :
    Agrees S X R (.mixin selectors args (.parametric params body)) := by
  intro collected
  have hbind := runs_bindFallbacks (params.drop args.length)
    (fun p hp => hfallbacks p (List.mem_of_mem_drop hp)) (Mixin.boundArguments params args)
  have harguments := runs_bindArguments (S := S) (X := X) (R := R) (params.zip args) []
  rw [List.append_nil] at harguments
  rw [run_eq, Guards.step]
  refine .enter (.apply (harguments.bind_ok ?_))
  rw [map_bind]
  refine hbind.bind fun q => .apply (.apply ?_)
  obtain ⟨bound, vs⟩ := q
  have hblock : Runs (.of (.empty :: .ofValues (("arguments".toList, .list (args ++ vs) .space) :: bound) :: S) X R)
      _ _ := runs_block (hbody _) collected
  dsimp only
  rw [mapM_attach (g := fun i => (run ⟨.ofItems body ::
    .ofValues (("arguments".toList, .list (args ++ vs) .space) :: bound) :: S, X, R, .item selectors i⟩ :
      Except Diagnostic Yield)) fun i _ => rfl, map_bind]
  rw [yields, map_map] at hblock
  exact hblock.bind fun ys => .apply (.apply (.done _ _))

variable {depth : Nat}

theorem agrees_tokens {value : List Token} (h : ∀ e, Expr.ofTokens value = .ok e → Agrees S X R (.expr depth e)) :
    Agrees S X R (.tokens depth value) := by
  rw [Agrees, run_eq, Guards.step]
  refine .enter ?_
  rw [Routine.code]
  split
  · next d hd =>
    split
    · next d' hd' =>
      obtain rfl : d = d' := Except.error.inj (hd.symm.trans hd')
      exact .fail _ _
    · next e he => exact nomatch hd.symm.trans he
  · next e he =>
    split
    · next d hd => exact nomatch he.symm.trans hd
    · next e' he' =>
      obtain rfl : e = e' := Except.ok.inj (he.symm.trans he')
      exact h e he

theorem agrees_function {name : Text} {args : List Token}
    (h : ∀ t ∈ args, t.kind = .atKeyword → Agrees S X R (.reference depth t.name t.position)) :
    Agrees S X R (.expr depth (.function name args)) := by
  have hpiece : ∀ t ∈ args, Runs (.of S X R)
      (if t.kind = .atKeyword then do
        let v ← enter (.reference depth t.name t.position)
        pure (t.spaced, v.render)
      else pure t.piece)
      ((Expr.argumentPiece (Guards.lookup S X R depth) t).map fun piece => (.of S X R, piece)) := by
    intro t ht
    rw [Expr.argumentPiece]
    split
    · next hk =>
      have hvalue : Runs _ _ ((Guards.lookup S X R depth t.name t.position).map _) := h t ht hk
      rw [map_map]
      exact hvalue.bind_map fun v => .done _ _
    · exact .done _ _
  have hpieces := Runs.mapM hpiece
  rw [Agrees, Guards.run_expr, Expr.evaluate, map_bind]
  exact .enter (hpieces.bind fun ps => .done _ _)

theorem agrees_negate {e : Expr} (h : Agrees S X R (.expr depth e)) : Agrees S X R (.expr depth (.negate e)) := by
  rw [Agrees, Guards.run_expr] at h ⊢
  rw [Expr.evaluate, map_bind]
  exact .enter (h.bind fun v => .done _ _)

theorem agrees_binary {op : Operator} {a b : Expr} {p : Position} (ha : Agrees S X R (.expr depth a))
    (hb : Agrees S X R (.expr depth b)) : Agrees S X R (.expr depth (.binary op a b p)) := by
  rw [Agrees, Guards.run_expr] at ha hb ⊢
  rw [Expr.evaluate, map_bind]
  refine .enter (ha.bind fun v => ?_)
  rw [map_bind]
  refine hb.bind fun w => ?_
  cases Value.operate op p v w with
  | error d => exact .fail _ _
  | ok v => exact .done _ _

theorem agrees_list {es : List Expr} {separator : Separator} (h : ∀ e ∈ es, Agrees S X R (.expr depth e)) :
    Agrees S X R (.expr depth (.list es separator)) := by
  have hvalues : Runs (.of S X R) (es.mapM fun e => enter (.expr depth e)) _ := Runs.mapM h
  rw [Guards.run_exprs] at hvalues
  rw [Agrees, Guards.run_expr, Expr.evaluate, map_bind]
  exact .enter (hvalues.bind fun vs => .done _ _)

theorem length_pos_of_find? {name : Text} {scopes home : Scopes} {b : Binding}
    (h : Scopes.find? name scopes = some (b, home)) : 0 < home.length := by
  induction scopes with
  | nil => exact nomatch h
  | cons s outer ih =>
    rw [Scopes.find?] at h
    split at h
    · obtain ⟨-, rfl⟩ := Prod.mk.inj (Option.some.inj h)
      exact Nat.succ_pos _
    · exact ih h

theorem agrees_reference {name : Text} {p : Position}
    (h : ∀ value home, Scopes.find? name (S.outermost depth) = some (.deferred value, home) →
      (name, home.length - 1) ∉ R → Agrees S X ((name, home.length - 1) :: R) (.tokens home.length value)) :
    Agrees S X R (.reference depth name p) := by
  show Runs _ _ ((Guards.lookup S X R depth name p).map _)
  rw [Guards.lookup_eq]
  refine .enter (.memory ?_)
  rw [Memory.find?_outermost]
  cases hfind : Scopes.find? name (S.outermost depth) with
  | none => exact .fail _ _
  | some q =>
    obtain ⟨b, home⟩ := q
    cases b with
    | resolved v => exact .done _ _
    | pending => exact .fail _ _
    | deferred value =>
      show Runs _ (if R.contains (name, home.length - 1) then _ else _) _
      simp only [List.contains_iff_mem]
      split
      · exact .fail _ _
      · next hr =>
        have hvalue : Runs _ _ ((run ⟨S, X, (name, home.length - 1) :: R, .tokens home.length value⟩ :
          Except Diagnostic Value).map _) := h value home hfind hr
        rw [Nat.sub_add_cancel (length_pos_of_find? hfind)]
        exact .apply (hvalue.bind_map fun v => .apply (.done _ _))

/-- The machine agrees with every frame, by induction on the chains of frames. -/
theorem agrees (f : Frame) : Agrees f.scopes f.expanding f.resolving f.task := by
  induction f using Guards.wellFounded_enters.induction with
  | _ f ih =>
    obtain ⟨S, X, R, task⟩ := f
    cases task with
    | tokens depth value => exact agrees_tokens fun e he => ih _ (.expression he)
    | reference depth name p => exact agrees_reference fun value home hfind hr => ih _ (.definition hfind hr)
    | expr depth e =>
      cases e with
      | number | keyword =>
        rw [Agrees, Guards.run_expr]
        exact .enter (.done _ _)
      | reference name p =>
        rw [Agrees, Guards.run_expr]
        exact .enter (ih _ .reference)
      | function name args => exact agrees_function fun t ht hk => ih _ (.keyword ht hk)
      | negate e => exact agrees_negate (ih _ .negate)
      | binary op a b p => exact agrees_binary (ih _ .left) (ih _ .right)
      | list es separator => exact agrees_list fun e he => ih _ (.element he)
    | mixin selectors args m =>
      cases m with
      | plain body => exact agrees_plain fun i hi => ih _ (.plain hi)
      | parametric params body =>
        exact agrees_parametric (fun p hp value hv bound => ih _ (.fallback bound hp hv))
          fun bound i hi => ih _ (.parametric bound hi)
    | item selectors i =>
      cases i with
      | declaration d => exact agrees_declaration (ih _ .declaration)
      | call c =>
        exact fun collected => .enter
          (runs_call (fun value hv => ih _ (.argument hv)) (fun hx args m hm => ih _ (.call args hm hx)) collected)
      | rule own body => exact agrees_rule fun i hi => ih _ (.rule hi)
      | atRule name params body => exact agrees_atRule fun i hi => ih _ (.atRule hi)
      | definition d | mixin name params body =>
        intro collected
        rw [run_eq]
        show Runs _ _ (.ok (_, collected ++ .none))
        rw [Yield.append_none]
        exact .enter (.done _ _)

/-- What is added to what has been collected leaves that at the front. -/
theorem extends_collected {e : Except Diagnostic Yield} {collected y : Yield} (h : e.map (collected ++ ·) = .ok y) :
    collected.properties <+: y.properties ∧ collected.nodes <+: y.nodes := by
  obtain ⟨z, -, rfl⟩ := map_eq_ok h
  exact ⟨List.prefix_append _ _, List.prefix_append _ _⟩

/-- Every routine comes to an end from a memory that stands for scopes, with the memory as it was and with what has been
collected before at the front of what it gives back. -/
theorem runs_enter (t : Routine) : ∃ e : Except Diagnostic t.Result,
    Runs (.of S X R) (enter t) (e.map fun r => (.of S X R, r)) ∧ ∀ r, e = .ok r → t.Extends r := by
  cases t with
  | rule around own body =>
    refine ⟨(yields (.ofItems body :: S) X R (Css.nestSelectors around own) body).map
      (Yield.underRule (Css.nestSelectors around own)), ?_, fun _ _ => trivial⟩
    rw [map_map]
    exact runs_rule fun i _ => agrees ⟨_, _, _, .item _ i⟩
  | atRule name params selectors body =>
    refine ⟨(yields (.ofItems body :: S) X R selectors body).map (Yield.underAtRule name params selectors), ?_,
      fun _ _ => trivial⟩
    rw [map_map]
    exact runs_atRule fun i _ => agrees ⟨_, _, _, .item _ i⟩
  | item selectors i collected =>
    refine ⟨(run ⟨S, X, R, .item selectors i⟩ : Except Diagnostic Yield).map (collected ++ ·), ?_,
      fun _ => extends_collected⟩
    rw [map_map]
    exact agrees ⟨S, X, R, .item selectors i⟩ collected
  | call selectors c collected =>
    refine ⟨(run ⟨S, X, R, .item selectors (.call c)⟩ : Except Diagnostic Yield).map (collected ++ ·), ?_,
      fun _ => extends_collected⟩
    rw [map_map]
    exact runs_call (fun value _ => agrees ⟨_, _, _, .tokens _ value⟩)
      (fun _ args m _ => agrees ⟨_, _, _, .mixin _ args m⟩) collected
  | mixin selectors args m collected =>
    refine ⟨(run ⟨S, X, R, .mixin selectors args m⟩ : Except Diagnostic Yield).map (collected ++ ·), ?_,
      fun _ => extends_collected⟩
    rw [map_map]
    exact agrees ⟨S, X, R, .mixin selectors args m⟩ collected
  | tokens depth value => exact ⟨_, agrees ⟨S, X, R, .tokens depth value⟩, fun _ _ => trivial⟩
  | expr depth e => exact ⟨_, agrees ⟨S, X, R, .expr depth e⟩, fun _ _ => trivial⟩
  | reference depth name p => exact ⟨_, agrees ⟨S, X, R, .reference depth name p⟩, fun _ _ => trivial⟩

/-- The memory when the definitions of a sheet have been hoisted. -/
def Memory.hoisted (s : Sheet) : Memory := .of [.ofItems s.items] [] []

theorem runs_statement (s : Sheet) (x : Statement) (nodes : List Css.Node) :
    Runs (.hoisted s) (statement nodes x) ((Guards.nodesOf s x).map fun ns => (.hoisted s, nodes ++ ns)) := by
  cases x with
  | directive d => exact .done _ _
  | definition d | mixin name params body =>
    show Runs _ _ (.ok (_, nodes ++ []))
    rw [List.append_nil]
    exact .done _ _
  | rule selectors body =>
    have hrule : Runs (.hoisted s) (enter (.rule [] selectors body)) _ :=
      runs_rule fun i _ => agrees ⟨.ofItems body :: [.ofItems s.items], [], [], .item _ i⟩
    show Runs _ _ (((run ⟨[.ofItems s.items], [], [], .item [] (.rule selectors body)⟩ :
      Except Diagnostic Yield).map Yield.nodes).map _)
    rw [run_rule, map_map, map_map]
    exact hrule.bind_map fun y => .done _ _
  | atRule name params body =>
    have hatRule : Runs (.hoisted s) (enter (.atRule name params [] body)) _ :=
      runs_atRule fun i _ => agrees ⟨.ofItems body :: [.ofItems s.items], [], [], .item _ i⟩
    show Runs _ _ (((run ⟨[.ofItems s.items], [], [], .item [] (.atRule name params body)⟩ :
      Except Diagnostic Yield).map Yield.nodes).map _)
    rw [run_atRule, map_map, map_map]
    exact hatRule.bind_map fun y => .done _ _
  | call c =>
    have hcall : Runs (.hoisted s) (enter (.call [] c .none)) _ :=
      runs_call (fun value _ => agrees ⟨_, _, _, .tokens _ value⟩)
        (fun _ args m _ => agrees ⟨_, _, _, .mixin _ args m⟩) .none
    show Runs _ _ (((run ⟨[.ofItems s.items], [], [], .item [] (.call c)⟩ : Except Diagnostic Yield) >>= fun y =>
      if y.properties.isEmpty then .ok y.nodes else .error (Fault.propertyOutsideRule.blame c.position)).map _)
    rw [map_bind]
    refine hcall.bind fun y => ?_
    rw [Yield.none_append]
    split
    · exact .done _ _
    · exact .fail _ _

/-- The statements of any sheet, evaluated with these definitions. -/
theorem runs_statements (s : Sheet) (xs : List Statement) (nodes : List Css.Node) :
    Runs (.hoisted s) (xs.foldlM statement nodes)
      ((xs.mapM (Guards.nodesOf s)).map fun nss => (.hoisted s, nodes ++ nss.flatten)) := by
  induction xs generalizing nodes with
  | nil =>
    show Runs _ (.done nodes) (.ok (_, nodes ++ []))
    rw [List.append_nil]
    exact .done _ _
  | cons x xs ih =>
    have hx := runs_statement s x nodes
    rw [List.foldlM_cons, List.mapM_cons, map_bind]
    refine hx.bind fun ns => ?_
    have hxs := ih (nodes ++ ns)
    simp only [List.append_assoc] at hxs
    rw [map_bind]
    exact hxs

theorem runs_hoist_sheet (s : Sheet) :
    Runs (Change.pushScope.apply .empty) (hoist s.items) (.ok (.hoisted s, ())) :=
  runs_hoist_new (S := []) (X := []) (R := []) s.items

theorem runs_sheet (s : Sheet) : Runs .empty (sheet s) (s.evaluate.map fun nodes => (.empty, nodes)) := by
  refine .apply ((runs_hoist_sheet s).bind_ok ?_)
  have hstatements := runs_statements s s []
  rw [← Guards.evaluate_eq, Guards.evaluate, map_map]
  exact hstatements.bind_map fun nss => .apply (.done _ _)

end Machine

open Machine

/-- Evaluation is framed. The machine evaluates a sheet as the sheet evaluates, and leaves its memory empty. In every
memory that it comes to, the stacks of variables and of mixins are equally long, and whatever it enters from there
leaves the memory as it was if it comes to a result: a rule, an at-rule, an item or a call. What has been collected
before stands unchanged at the front of that result. So a statement adds the same nodes whatever statements have been
evaluated before it. -/
theorem Sheet.evaluate_framed (s : Sheet) :
    Runs .empty (sheet s) (s.evaluate.map fun nodes => (.empty, nodes)) ∧
      Reaches (.empty, sheet s) (.hoisted s, statements s) ∧
      (∀ σ p, Reaches (.empty, sheet s) (σ, p) → σ.bindings.length = σ.mixins.length ∧
        ∀ (t : Routine) σ' r, Reaches (σ, enter t) (σ', .done r) → σ' = σ ∧ t.Extends r) ∧
      ∀ x, ∃ produced : Except Diagnostic (List Css.Node), ∀ (before : List Statement) nodes σ,
        Reaches (.hoisted s, before.foldlM statement []) (σ, .done nodes) →
          σ = .hoisted s ∧ Runs σ (statement nodes x) (produced.map fun ns => (σ, nodes ++ ns)) := by
  refine ⟨runs_sheet s, ?_, ?_, ?_⟩
  · have hhoist : Reaches (Change.pushScope.apply .empty, hoist s.items >>= fun _ => statements s)
        (.hoisted s, statements s) := Reaches.bind (runs_hoist_sheet s) _
    exact .head .change hhoist
  · intro σ p hreach
    have hbalanced : σ.bindings.length = σ.mixins.length := Reaches.balanced hreach rfl
    refine ⟨hbalanced, fun t σ' r hr => ?_⟩
    obtain ⟨S, hσ⟩ := σ.exists_of hbalanced
    obtain ⟨e, hruns, hextends⟩ := runs_enter (S := S) (X := σ.expanding) (R := σ.resolving) t
    rw [← hσ] at hruns
    obtain ⟨r', hr', heq⟩ := map_eq_ok (hruns.eq_ok hr)
    obtain ⟨rfl, rfl⟩ := Prod.mk.inj heq
    exact ⟨rfl, hextends _ hr'⟩
  · intro x
    refine ⟨Guards.nodesOf s x, fun before nodes σ hbefore => ?_⟩
    obtain ⟨nss, -, heq⟩ := map_eq_ok ((runs_statements s before []).eq_ok hbefore)
    obtain ⟨rfl, -⟩ := Prod.mk.inj heq
    exact ⟨rfl, runs_statement s x nodes⟩

/-- A block that defines a variable leaves no trace of it. -/
theorem Sheet.evaluate_framed_definition :
    let s : Sheet := [.rule ["a".toList] [.definition ⟨"x".toList, []⟩]]
    let block : Routine := .item ["b".toList] (.rule ["c".toList] [.definition ⟨"y".toList, []⟩]) .none
    Reaches (.empty, sheet s) (.hoisted s, statements s) ∧
      Reaches (.hoisted s, enter block) (.hoisted s, .done .none) ∧
      ∀ σ r, Reaches (.hoisted s, enter block) (σ, .done r) → σ = .hoisted s ∧ block.Extends r := by
  intro s block
  obtain ⟨-, hhoisted, hframed, -⟩ := evaluate_framed s
  refine ⟨hhoisted, ?_, (hframed _ _ hhoisted).2 block⟩
  exact .head .enter <| .head .enter <| .head .change <| .head .change <| .head .enter <| .head .change <| .refl

end LessCss
