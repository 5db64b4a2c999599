import Mathlib.Logic.Relation
import LessCss.Proofs.Css.Guards
/-!
Evaluation as a machine with a memory.

The machine keeps the variables and the mixins of the blocks around it on two stacks, and the definitions that are
being resolved and the mixins that are being expanded on two more. It pushes and pops by hand. What it does is code: a
row of changes and of calls of its own routines, one routine for each kind of work. `Step` carries out one of them. What a row
of steps comes to is a final memory with a result, or a diagnostic (`Runs`).
-/
namespace LessCss.Machine

/-- What the machine keeps. The innermost scope comes first. -/
structure Memory where
  bindings : List (List (Text × Binding))
  mixins : List (List (Text × Mixin))
  resolving : List (Text × Nat)
  expanding : List Text

namespace Memory

def empty : Memory := ⟨[], [], [], []⟩

def depth (σ : Memory) : Nat := σ.bindings.length

/-- The binding of a name in the innermost scope that binds it, and the level of that scope. -/
def find? (name : Text) : List (List (Text × Binding)) → Option (Binding × Nat)
  | [] => none
  | bindings :: outer =>
    match Scope.find? name bindings with
    | some (b, _) => some (b, outer.length)
    | none => find? name outer

/-- The mixins of a name in the innermost scope that has any. -/
def mixinsNamed (name : Text) : List (List (Text × Mixin)) → List Mixin
  | [] => []
  | mixins :: outer =>
    let found := Scope.mixinsNamed ⟨[], mixins⟩ name
    if found.isEmpty then mixinsNamed name outer else found

end Memory

/-- What is done to the memory. -/
inductive Change
  | pushScope
  | popScope
  | define (name : Text) (b : Binding)
  | register (name : Text) (m : Mixin)
  | startResolving (name : Text) (level : Nat)
  | stopResolving
  | startExpanding (name : Text)
  | stopExpanding

/-- Definitions go into the innermost scope. -/
def Change.apply : Change → Memory → Memory
  | pushScope, σ => { σ with bindings := [] :: σ.bindings, mixins := [] :: σ.mixins }
  | popScope, σ => { σ with bindings := σ.bindings.tail, mixins := σ.mixins.tail }
  | define name b, σ => { σ with bindings := σ.bindings.modifyHead ((name, b) :: ·) }
  | register name m, σ => { σ with mixins := σ.mixins.modifyHead (· ++ [(name, m)]) }
  | startResolving name level, σ => { σ with resolving := (name, level) :: σ.resolving }
  | stopResolving, σ => { σ with resolving := σ.resolving.tail }
  | startExpanding name, σ => { σ with expanding := name :: σ.expanding }
  | stopExpanding, σ => { σ with expanding := σ.expanding.tail }

/-- What the machine can be made to do. The properties and nodes that have been collected so far are handed on to what
adds to them. Values are evaluated in the `depth` outermost scopes. -/
inductive Routine
  | rule (around own : List Text) (body : List Item)
  | atRule (name params : Text) (selectors : List Text) (body : List Item)
  | item (selectors : List Text) (i : Item) (collected : Yield)
  | call (selectors : List Text) (c : Call) (collected : Yield)
  | mixin (selectors : List Text) (args : List Value) (m : Mixin) (collected : Yield)
  | tokens (depth : Nat) (value : List Token)
  | expr (depth : Nat) (e : Expr)
  | reference (depth : Nat) (name : Text) (p : Position)

namespace Routine

/-- What a routine gives back. -/
abbrev Result : Routine → Type
  | rule .. => List Css.Node
  | atRule .. => Css.Node
  | item .. | call .. | mixin .. => Yield
  | tokens .. | expr .. | reference .. => Value

/-- What has been collected before stands unchanged at the front of what is given back. -/
def Extends : (t : Routine) → t.Result → Prop
  | item _ _ collected, y | call _ _ collected, y | mixin _ _ _ collected, y =>
    collected.properties <+: y.properties ∧ collected.nodes <+: y.nodes
  | _, _ => True

end Routine

/-- What is left to do. -/
inductive Code (α : Type) : Type
  | done (a : α)
  | fail (d : Diagnostic)
  | read (k : Memory → Code α)
  | change (c : Change) (k : Code α)
  | enter (t : Routine) (k : t.Result → Code α)

namespace Code

variable {α β γ : Type}

def bind : Code α → (α → Code β) → Code β
  | done a, f => f a
  | fail d, _ => fail d
  | read k, f => read fun σ => bind (k σ) f
  | change c k, f => change c (bind k f)
  | enter t k, f => enter t fun r => bind (k r) f

instance : Monad Code where
  pure := done
  bind := bind

theorem bind_done (p : Code α) : p.bind done = p := by
  induction p with
  | done | fail => rfl
  | read k ih => exact congrArg read (funext ih)
  | change c k ih => exact congrArg (change c) ih
  | enter t k ih => exact congrArg (enter t) (funext ih)

theorem bind_bind (p : Code α) (f : α → Code β) (g : β → Code γ) :
    (p.bind f).bind g = p.bind fun a => (f a).bind g := by
  induction p with
  | done | fail => rfl
  | read k ih => exact congrArg read (funext ih)
  | change c k ih => exact congrArg (change c) ih
  | enter t k ih => exact congrArg (enter t) (funext ih)

instance : LawfulMonad Code := LawfulMonad.mk' Code bind_done (fun _ _ => rfl) bind_bind

end Code

def memory : Code Memory := .read .done

def apply (c : Change) : Code Unit := .change c (.done ())

def enter (t : Routine) : Code t.Result := .enter t .done

/-- Defines what an item defines. -/
def hoistItem : Item → Code Unit
  | .definition d => apply (.define d.name (.deferred d.value))
  | .mixin name params body => apply (.register name (.parametric params body))
  | .rule [selector] body => if Scope.isCallable selector then apply (.register selector (.plain body)) else pure ()
  | _ => pure ()

def hoist : List Item → Code Unit
  | [] => pure ()
  | i :: is => do
    hoistItem i
    hoist is

/-- The items of a block, in a scope that has just been pushed. -/
def block (selectors : List Text) (body : List Item) (collected : Yield) : Code Yield := do
  hoist body
  body.foldlM (fun y i => enter (.item selectors i y)) collected

def bindArguments : List (Parameter × Value) → Code Unit
  | [] => pure ()
  | (p, v) :: bound => do
    apply (.define p.name (.resolved v))
    bindArguments bound

/-- Binds the parameters that a call leaves out, in order, and lists their values. -/
def bindFallbacks : List Parameter → Code (List Value)
  | [] => pure []
  | p :: ps =>
    match p.fallback with
    | none => bindFallbacks ps
    | some value => do
      let σ ← memory
      let v ← enter (.tokens σ.depth value)
      apply (.define p.name (.resolved v))
      let vs ← bindFallbacks ps
      pure (v :: vs)

/-- Marks the properties important that come after the first `start`. -/
def markFrom (start : Nat) (y : Yield) : Yield :=
  { y with properties := y.properties.take start ++ (Yield.important ⟨y.properties.drop start, []⟩).properties }

/-- The code of a routine. -/
def Routine.code : (t : Routine) → Code t.Result
  | .rule around own body => do
    apply .pushScope
    let y ← block (Css.nestSelectors around own) body .none
    apply .popScope
    pure (y.underRule (Css.nestSelectors around own))
  | .atRule name params selectors body => do
    apply .pushScope
    let y ← block selectors body .none
    apply .popScope
    pure (y.underAtRule name params selectors)
  | .item _ (.definition _) collected | .item _ (.mixin ..) collected => pure collected
  | .item _ (.declaration d) collected => do
    let σ ← memory
    let v ← enter (.tokens σ.depth d.value)
    pure { collected with properties := collected.properties ++ [⟨d.name, v.render, d.important⟩] }
  | .item selectors (.rule own body) collected => do
    let nodes ← enter (.rule selectors own body)
    pure { collected with nodes := collected.nodes ++ nodes }
  | .item selectors (.atRule name params body) collected => do
    let node ← enter (.atRule name params selectors body)
    pure { collected with nodes := collected.nodes ++ [node] }
  | .item selectors (.call c) collected => enter (.call selectors c collected)
  | .call selectors c collected => do
    let σ ← memory
    let candidates := Memory.mixinsNamed c.name σ.mixins
    if candidates.isEmpty then .fail ((Fault.undefinedMixin c.name).blame c.position)
    else if σ.expanding.contains c.name then .fail ((Fault.recursiveMixin c.name).blame c.position)
    else do
      let args ← c.args.mapM fun value => enter (.tokens σ.depth value)
      let applicable := candidates.filter (·.accepts args.length)
      if applicable.isEmpty then .fail ((Fault.noMatchingMixin c.name).blame c.position)
      else do
        apply (.startExpanding c.name)
        let y ← applicable.foldlM (fun y m => enter (.mixin selectors args m y)) collected
        apply .stopExpanding
        pure (if c.important then markFrom collected.properties.length y else y)
  | .mixin selectors _ (.plain body) collected => do
    apply .pushScope
    let y ← block selectors body collected
    apply .popScope
    pure y
  | .mixin selectors args (.parametric params body) collected => do
    apply .pushScope
    bindArguments (params.zip args)
    let vs ← bindFallbacks (params.drop args.length)
    apply (.define "arguments".toList (.resolved (.list (args ++ vs) .space)))
    apply .pushScope
    let y ← block selectors body collected
    apply .popScope
    apply .popScope
    pure y
  | .tokens depth value =>
    match Expr.ofTokens value with
    | .error d => .fail d
    | .ok e => enter (.expr depth e)
  | .expr _ (.number value unit text) => pure (.dimension ⟨value, unit, some text⟩)
  | .expr _ (.keyword text) => pure (.keyword text)
  | .expr depth (.reference name p) => enter (.reference depth name p)
  | .expr depth (.function name args) => do
    let inner : List Token.Piece ← args.mapM fun t =>
      if t.kind = .atKeyword then do
        let v ← enter (.reference depth t.name t.position)
        pure (t.spaced, v.render)
      else pure t.piece
    pure (.keyword (name ++ '(' :: Token.joinPieces inner ++ [')']))
  | .expr depth (.negate e) => do
    let v ← enter (.expr depth e)
    pure v.negate
  | .expr depth (.binary op a b p) => do
    let v ← enter (.expr depth a)
    let w ← enter (.expr depth b)
    match Value.operate op p v w with
    | .error d => .fail d
    | .ok v => pure v
  | .expr depth (.list es separator) => do
    let vs ← es.mapM fun e => enter (.expr depth e)
    pure (.list vs separator)
  | .reference depth name p => do
    let σ ← memory
    match Memory.find? name (σ.bindings.drop (σ.depth - depth)) with
    | none => .fail ((Fault.undefinedVariable name).blame p)
    | some (.resolved v, _) => pure v
    | some (.pending, _) => .fail ((Fault.recursiveVariable name).blame p)
    | some (.deferred value, level) =>
      if σ.resolving.contains (name, level) then .fail ((Fault.recursiveVariable name).blame p)
      else do
        apply (.startResolving name level)
        let v ← enter (.tokens (level + 1) value)
        apply .stopResolving
        pure v

/-- Adds the nodes of a statement of a sheet to those of the statements before it. -/
def statement (nodes : List Css.Node) : Statement → Code (List Css.Node)
  | .directive d => pure (nodes ++ [.directive d.name d.params])
  | .definition _ | .mixin .. => pure nodes
  | .rule selectors body => do
    let produced ← enter (.rule [] selectors body)
    pure (nodes ++ produced)
  | .atRule name params body => do
    let node ← enter (.atRule name params [] body)
    pure (nodes ++ [node])
  | .call c => do
    let y ← enter (.call [] c .none)
    if y.properties.isEmpty then pure (nodes ++ y.nodes)
    else .fail (Fault.propertyOutsideRule.blame c.position)

def statements (s : Sheet) : Code (List Css.Node) := do
  let nodes ← s.foldlM statement []
  apply .popScope
  pure nodes

def sheet (s : Sheet) : Code (List Css.Node) := do
  apply .pushScope
  hoist s.items
  statements s

variable {α β : Type}

/-- A memory, and what is left to do with it. -/
abbrev Config (α : Type) := Memory × Code α

/-- The first thing that is left to do is done. The code of a routine takes the place of its call. -/
inductive Step : Config α → Config α → Prop
  | read {σ k} : Step (σ, .read k) (σ, k σ)
  | change {σ c k} : Step (σ, .change c k) (c.apply σ, k)
  | enter {σ t k} : Step (σ, .enter t k) (σ, t.code.bind k)

abbrev Reaches : Config α → Config α → Prop := Relation.ReflTransGen Step

theorem Step.unique {c c₁ c₂ : Config α} (h₁ : Step c c₁) (h₂ : Step c c₂) : c₁ = c₂ := by
  cases h₁ <;> cases h₂ <;> rfl

theorem Step.bind {σ σ' : Memory} {p q : Code α} (h : Step (σ, p) (σ', q)) (f : α → Code β) :
    Step (σ, p.bind f) (σ', q.bind f) := by
  cases h with
  | read => exact .read
  | change => exact .change
  | enter =>
    rw [Code.bind_bind]
    exact .enter

theorem Reaches.bind {σ σ' : Memory} {p q : Code α} (h : Reaches (σ, p) (σ', q)) (f : α → Code β) :
    Reaches (σ, p.bind f) (σ', q.bind f) := by
  generalize hc : (σ', q) = c at h
  induction h generalizing σ' q with
  | refl =>
    obtain ⟨rfl, rfl⟩ := Prod.mk.inj hc
    exact .refl
  | @tail b c _ hstep ih =>
    subst hc
    exact (ih rfl).tail (hstep.bind f)

/-- The stacks of variables and of mixins are equally long after each step. -/
theorem Step.balanced {c c' : Config α} (h : Step c c') (hc : c.1.bindings.length = c.1.mixins.length) :
    c'.1.bindings.length = c'.1.mixins.length := by
  cases h with
  | read | enter => exact hc
  | @change σ change k =>
    cases change <;> simp_all [Change.apply]

theorem Reaches.balanced {c c' : Config α} (h : Reaches c c') (hc : c.1.bindings.length = c.1.mixins.length) :
    c'.1.bindings.length = c'.1.mixins.length := by
  induction h with
  | refl => exact hc
  | tail _ hstep ih => exact hstep.balanced ih

/-- What the machine comes to from a memory: another memory with a result, or a diagnostic. -/
def Runs (σ : Memory) (p : Code α) : Except Diagnostic (Memory × α) → Prop
  | .ok (σ', a) => Reaches (σ, p) (σ', .done a)
  | .error d => ∃ σ', Reaches (σ, p) (σ', .fail d)

/-- The machine comes to what it comes to. -/
theorem Runs.eq_ok {σ σ' : Memory} {p : Code α} {e : Except Diagnostic (Memory × α)} {a : α} (h : Runs σ p e)
    (ha : Reaches (σ, p) (σ', .done a)) : e = .ok (σ', a) := by
  have hjoin : ∀ {c : Config α}, Reaches (σ, p) c → Reaches c (σ', .done a) ∨ Reaches (σ', .done a) c :=
    fun hc => Relation.ReflTransGen.total_of_right_unique (fun _ _ _ => Step.unique) hc ha
  have hstop : ∀ {c c' : Config α}, (∀ x, ¬Step c x) → Reaches c c' → c' = c := by
    intro c c' hc h
    cases Relation.ReflTransGen.cases_head h with
    | inl heq => exact heq.symm
    | inr hstep =>
      obtain ⟨x, hx, -⟩ := hstep
      exact absurd hx (hc x)
  have hdone : ∀ {τ : Memory} {b : α} (x : Config α), ¬Step (τ, .done b) x := nofun
  cases e with
  | error d =>
    obtain ⟨τ, hτ⟩ := h
    have hfail : ∀ x : Config α, ¬Step (τ, .fail d) x := nofun
    rcases hjoin hτ with h | h
    · exact nomatch congrArg Prod.snd (hstop hfail h)
    · exact nomatch congrArg Prod.snd (hstop hdone h)
  | ok q =>
    obtain ⟨τ, b⟩ := q
    have heq : (τ, Code.done b) = (σ', Code.done a) := by
      rcases hjoin h with h | h
      · exact (hstop hdone h).symm
      · exact hstop hdone h
    obtain ⟨rfl, hb⟩ := Prod.mk.inj heq
    obtain rfl := Code.done.inj hb
    rfl

namespace Runs

variable {σ : Memory} {e : Except Diagnostic (Memory × α)} {p : Code α}

theorem done (σ : Memory) (a : α) : Runs σ (.done a) (.ok (σ, a)) := .refl

theorem fail (σ : Memory) (d : Diagnostic) : Runs σ (.fail d : Code α) (.error d) := ⟨σ, .refl⟩

theorem head {c : Config α} (hstep : Step (σ, p) c) (h : Runs c.1 c.2 e) : Runs σ p e := by
  cases e with
  | ok q => exact .head hstep h
  | error d =>
    obtain ⟨τ, hτ⟩ := h
    exact ⟨τ, .head hstep hτ⟩

theorem memory {k : Memory → Code α} (h : Runs σ (k σ) e) : Runs σ (Machine.memory >>= k) e := .head .read h

theorem apply {c : Change} {k : Code α} (h : Runs (c.apply σ) k e) :
    Runs σ (Machine.apply c >>= fun _ => k) e := .head .change h

theorem change (σ : Memory) (c : Change) : Runs σ (Machine.apply c) (.ok (c.apply σ, ())) := .single .change

theorem enter {t : Routine} {e : Except Diagnostic (Memory × t.Result)} (h : Runs σ t.code e) :
    Runs σ (Machine.enter t) e := by
  refine .head .enter ?_
  rw [Code.bind_done]
  exact h

variable {k : α → Code β} {σ' : Memory} {a : α} {e' : Except Diagnostic (Memory × β)}

theorem bind_ok (h : Runs σ p (.ok (σ', a))) (hk : Runs σ' (k a) e') : Runs σ (p >>= k) e' := by
  have hfirst : Reaches (σ, p >>= k) (σ', k a) := Reaches.bind h k
  cases e' with
  | ok q => exact hfirst.trans hk
  | error d =>
    obtain ⟨τ, hτ⟩ := hk
    exact ⟨τ, hfirst.trans hτ⟩

theorem bind_error {d : Diagnostic} (h : Runs σ p (.error d)) : Runs σ (p >>= k) (.error d) := by
  obtain ⟨τ, hτ⟩ := h
  exact ⟨τ, hτ.bind k⟩

variable {γ : Type} {x : Except Diagnostic γ} {f : γ → Memory × α}

/-- What follows a computation comes to what follows the outcome of the computation. -/
theorem bind {y : γ → Except Diagnostic (Memory × β)} (h : Runs σ p (x.map f))
    (hk : ∀ c, Runs (f c).1 (k (f c).2) (y c)) : Runs σ (p >>= k) (x >>= y) := by
  cases x with
  | error d => exact h.bind_error
  | ok c => exact bind_ok h (hk c)

/-- What follows a computation comes to a result whenever the computation does. -/
theorem bind_map {g : γ → Memory × β} (h : Runs σ p (x.map f))
    (hk : ∀ c, Runs (f c).1 (k (f c).2) (.ok (g c))) : Runs σ (p >>= k) (x.map g) := by
  cases x with
  | error d => exact h.bind_error
  | ok c => exact bind_ok h (hk c)

end Runs
end LessCss.Machine
