import LessCss.Proofs.Css.Steps
/-!
Evaluation as a chain of frames with two guard stacks.

A frame is one entry into the evaluator: the scopes, the names of the mixins that are being expanded, the definitions
that are being resolved, each with the level of its scope, and what is to be evaluated. `Enters` says which frames a
frame may lead to. It leaves the values of parameters open, so every chain of entries of an evaluation is a chain of
`Enters`. No such chain is infinite (`wellFounded_enters`): names not yet expanded, the syntax tree, definitions not
yet resolved and the expression decrease in this order. `run` evaluates a frame by recursion along `Enters`.
-/
namespace LessCss

namespace Scopes

def outermost (depth : Nat) (scopes : Scopes) : Scopes := scopes.drop (scopes.length - depth)

/-- The bound names, each with the number of the scopes outside of its own. -/
def keys : Scopes → List (Text × Nat)
  | [] => []
  | s :: outer => s.bindings.map (fun b => (b.1, outer.length)) ++ keys outer

end Scopes

namespace Guards

/-- What a frame evaluates. Values are evaluated in the `depth` outermost scopes. -/
inductive Task
  | item (selectors : List Text) (i : Item)
  | mixin (selectors : List Text) (args : List Value) (m : Mixin)
  | tokens (depth : Nat) (value : List Token)
  | expr (depth : Nat) (e : Expr)
  | reference (depth : Nat) (name : Text) (p : Position)

namespace Task

abbrev Result : Task → Type
  | item .. | mixin .. => Yield
  | tokens .. | expr .. | reference .. => Value

/-- What is left of the syntax tree, and of the expression. -/
noncomputable def size : Task → Nat × Nat
  | item _ i => (sizeOf i, 0)
  | mixin _ _ m => (sizeOf m, 0)
  | tokens _ value => (0, sizeOf (Expr.ofTokens value).toOption)
  | expr _ e => (0, sizeOf e)
  | reference .. => (0, 0)

/-- The mixins that are defined in what a task reads. -/
def mixinNames : Task → List Text
  | item _ i => i.mixinNames
  | mixin _ _ m => Item.mixinNamesAll m.body
  | _ => []

end Task

/-- One entry into the evaluator. -/
structure Frame where
  scopes : Scopes
  expanding : List Text
  resolving : List (Text × Nat)
  task : Task

/-- The frames that a frame may enter. Only `call` and `definition` push on a guard stack, and each of them only
what is not on that stack. -/
inductive Enters : Frame → Frame → Prop
  -- items
  | declaration {S X R selectors d} :
      Enters ⟨S, X, R, .item selectors (.declaration d)⟩ ⟨S, X, R, .tokens S.length d.value⟩
  | rule {S X R selectors own body i} (hi : i ∈ body) :
      Enters ⟨S, X, R, .item selectors (.rule own body)⟩
        ⟨.ofItems body :: S, X, R, .item (Css.nestSelectors selectors own) i⟩
  | atRule {S X R selectors name params body i} (hi : i ∈ body) :
      Enters ⟨S, X, R, .item selectors (.atRule name params body)⟩ ⟨.ofItems body :: S, X, R, .item selectors i⟩
  | argument {S X R selectors value} {c : Call} (hv : value ∈ c.args) :
      Enters ⟨S, X, R, .item selectors (.call c)⟩ ⟨S, X, R, .tokens S.length value⟩
  | call {S X R selectors m} {c : Call} (args : List Value) (hm : m ∈ Scopes.mixinsNamed S c.name)
      (hx : c.name ∉ X) :
      Enters ⟨S, X, R, .item selectors (.call c)⟩ ⟨S, c.name :: X, R, .mixin selectors args m⟩
  -- mixins
  | plain {S X R selectors args body i} (hi : i ∈ body) :
      Enters ⟨S, X, R, .mixin selectors args (.plain body)⟩ ⟨.ofItems body :: S, X, R, .item selectors i⟩
  | fallback {S X R selectors args params body p value} (bound : List (Text × Value)) (hp : p ∈ params)
      (hv : p.fallback = some value) :
      Enters ⟨S, X, R, .mixin selectors args (.parametric params body)⟩
        ⟨.ofValues bound :: S, X, R, .tokens (S.length + 1) value⟩
  | parametric {S X R selectors args params body i} (bound : List (Text × Value)) (hi : i ∈ body) :
      Enters ⟨S, X, R, .mixin selectors args (.parametric params body)⟩
        ⟨.ofItems body :: .ofValues bound :: S, X, R, .item selectors i⟩
  -- values
  | expression {S X R depth value e} (he : Expr.ofTokens value = .ok e) :
      Enters ⟨S, X, R, .tokens depth value⟩ ⟨S, X, R, .expr depth e⟩
  | negate {S X R depth e} : Enters ⟨S, X, R, .expr depth (.negate e)⟩ ⟨S, X, R, .expr depth e⟩
  | left {S X R depth op a b p} : Enters ⟨S, X, R, .expr depth (.binary op a b p)⟩ ⟨S, X, R, .expr depth a⟩
  | right {S X R depth op a b p} : Enters ⟨S, X, R, .expr depth (.binary op a b p)⟩ ⟨S, X, R, .expr depth b⟩
  | element {S X R depth es separator e} (he : e ∈ es) :
      Enters ⟨S, X, R, .expr depth (.list es separator)⟩ ⟨S, X, R, .expr depth e⟩
  | reference {S X R depth name p} :
      Enters ⟨S, X, R, .expr depth (.reference name p)⟩ ⟨S, X, R, .reference depth name p⟩
  | keyword {S X R depth name args t} (ht : t ∈ args) (hk : t.kind = .atKeyword) :
      Enters ⟨S, X, R, .expr depth (.function name args)⟩ ⟨S, X, R, .reference depth t.name t.position⟩
  | definition {S X R depth name p value home}
      (hfind : Scopes.find? name (Scopes.outermost depth S) = some (.deferred value, home))
      (hr : (name, home.length - 1) ∉ R) :
      Enters ⟨S, X, R, .reference depth name p⟩ ⟨S, X, (name, home.length - 1) :: R, .tokens home.length value⟩

/-- Whether an element is on a guard stack. -/
scoped instance onStack {α : Type} [DecidableEq α] (x : α) (stack : List α) : Decidable (x ∈ stack) :=
  List.instDecidableMemOfLawfulBEq x stack

/-- The elements that are not on a guard stack. -/
def unguarded {α : Type} [DecidableEq α] (stack all : List α) : List α := all.filter (· ∉ stack)

theorem unguarded_push {α : Type} [DecidableEq α] {x : α} {stack all : List α} (hx : x ∈ all) (hs : x ∉ stack) :
    (unguarded (x :: stack) all).length < (unguarded stack all).length := by
  have hfilter : unguarded (x :: stack) all = (unguarded stack all).filter (· ≠ x) := by
    simp [unguarded, List.filter_filter]
  rw [hfilter, List.length_filter_lt_length_iff_exists]
  exact ⟨x, by simp [unguarded, hx, hs], by simp⟩

end Guards

namespace Item

theorem mixinNames_of_mixin? {i : Item} {name : Text} {m : Mixin} (h : Scope.mixin? i = some (name, m)) :
    i.mixinNames = name :: mixinNamesAll m.body := by
  unfold Scope.mixin? at h
  split at h
  · next selector body =>
    split at h
    · next hc =>
      obtain ⟨rfl, rfl⟩ := Prod.mk.inj (Option.some.inj h)
      simp [mixinNames, Scope.mixin?, hc, Mixin.body]
    · cases h
  · obtain ⟨rfl, rfl⟩ := Prod.mk.inj (Option.some.inj h)
    rfl
  · cases h

theorem mixinNames_subset {i : Item} {is : List Item} (h : i ∈ is) : i.mixinNames ⊆ mixinNamesAll is := by
  induction is with
  | nil => exact nomatch h
  | cons j is ih =>
    intro name hname
    rw [mixinNamesAll, List.mem_append]
    cases h with
    | head => exact .inl hname
    | tail _ h => exact .inr (ih h hname)

end Item

theorem Scope.mem_names_of_find? {name : Text} {bs marked : List (Text × Binding)} {b : Binding}
    (h : find? name bs = some (b, marked)) : name ∈ bs.map (·.1) := by
  induction bs generalizing marked with
  | nil => simp [find?] at h
  | cons c bs ih =>
    obtain ⟨n, c⟩ := c
    rw [find?] at h
    split at h
    · next hn => simp [hn]
    · obtain ⟨⟨found, rest⟩, hrest, heq⟩ := Option.map_eq_some_iff.mp h
      obtain ⟨rfl, -⟩ := Prod.mk.inj heq
      exact List.mem_cons_of_mem _ (ih hrest)

theorem Scopes.mem_keys_of_find? {scopes home : Scopes} {name : Text} {b : Binding}
    (h : find? name scopes = some (b, home)) : (name, home.length - 1) ∈ scopes.keys := by
  induction scopes with
  | nil => exact nomatch h
  | cons s outer ih =>
    rw [keys, List.mem_append]
    simp only [find?] at h
    split at h
    · next b' marked hs =>
      obtain ⟨rfl, rfl⟩ := Prod.mk.inj (Option.some.inj h)
      obtain ⟨q, hq, rfl⟩ := List.mem_map.mp (Scope.mem_names_of_find? hs)
      exact .inl (List.mem_map.mpr ⟨q, hq, rfl⟩)
    · exact .inr (ih h)

theorem Scopes.keys_drop_subset (n : Nat) (scopes : Scopes) : keys (scopes.drop n) ⊆ keys scopes := by
  induction scopes generalizing n with
  | nil => simp
  | cons s outer ih =>
    cases n with
    | zero => exact List.Subset.refl _
    | succ n => exact fun key hkey => List.mem_append_right _ (ih n hkey)

namespace Guards

/-- The mixins that can be reached from a frame have their names in a list. -/
structure Frame.Within (names : List Text) (f : Frame) : Prop where
  scopes : ∀ s ∈ f.scopes, ∀ name m, (name, m) ∈ s.mixins →
    name ∈ names ∧ Item.mixinNamesAll m.body ⊆ names
  task : f.task.mixinNames ⊆ names

variable {names : List Text} {f g : Frame}

theorem within_ofItems {body : List Item} (h : Item.mixinNamesAll body ⊆ names) {name : Text} {m : Mixin}
    (hm : (name, m) ∈ (Scope.ofItems body).mixins) : name ∈ names ∧ Item.mixinNamesAll m.body ⊆ names := by
  obtain ⟨i, hi, hmixin⟩ := List.mem_filterMap.mp hm
  have hsub : name :: Item.mixinNamesAll m.body ⊆ names := by
    rw [← Item.mixinNames_of_mixin? hmixin]
    exact fun n hn => h (Item.mixinNames_subset hi hn)
  exact ⟨hsub (.head _), fun n hn => hsub (.tail _ hn)⟩

theorem Frame.Within.block (h : f.Within names) {body : List Item} (hbody : Item.mixinNamesAll body ⊆ names)
    {i : Item} (hi : i ∈ body) (bound : List Scope) (hbound : ∀ s ∈ bound, s.mixins = []) (X : List Text)
    (R : List (Text × Nat)) (selectors : List Text) :
    Frame.Within names ⟨.ofItems body :: (bound ++ f.scopes), X, R, .item selectors i⟩ := by
  refine ⟨?_, fun n hn => hbody (Item.mixinNames_subset hi hn)⟩
  intro s hs name m hm
  rcases List.mem_cons.mp hs with rfl | hs
  · exact within_ofItems hbody hm
  · rcases List.mem_append.mp hs with hs | hs
    · rw [hbound s hs] at hm
      exact nomatch hm
    · exact h.scopes s hs name m hm

theorem Frame.Within.enters (h : f.Within names) (he : Enters f g) : g.Within names := by
  cases he with
  | @rule S X R selectors own body i hi =>
    have hbody : Item.mixinNamesAll body ⊆ names := fun n hn => h.task (List.mem_append_right _ hn)
    exact h.block hbody hi [] (by simp) X R _
  | @atRule S X R selectors name params body i hi =>
    have hbody : Item.mixinNamesAll body ⊆ names := fun n hn => h.task (List.mem_append_right _ hn)
    exact h.block hbody hi [] (by simp) X R _
  | @call S X R selectors c m args hm hx =>
    obtain ⟨s, hs, hmixin⟩ := Scopes.exists_of_mem_mixinsNamed hm
    exact ⟨h.scopes, (h.scopes s hs _ _ hmixin).2⟩
  | @plain S X R selectors args body i hi => exact h.block h.task hi [] (by simp) X R _
  | @parametric S X R selectors args params body i bound hi =>
    exact h.block h.task hi [.ofValues bound] (by simp [Scope.ofValues]) X R _
  | @fallback S X R selectors args params body p value bound hp hv =>
    refine ⟨?_, List.nil_subset _⟩
    intro s hs name m hm
    rcases List.mem_cons.mp hs with rfl | hs
    · exact nomatch hm
    · exact h.scopes s hs name m hm
  | _ => exact ⟨h.scopes, List.nil_subset _⟩

/-- What an entry does to the stacks, the scopes and the task. -/
inductive Move (f g : Frame) : Prop
  /-- The name of a mixin in scope is pushed. -/
  | expand (name : Text) (hname : ∃ s ∈ f.scopes, ∃ m, (name, m) ∈ s.mixins) (hnew : name ∉ f.expanding)
      (hexpanding : g.expanding = name :: f.expanding) (hresolving : g.resolving = f.resolving)
      (hscopes : g.scopes = f.scopes) (hitems : 0 < f.task.size.1)
  /-- A definition in scope is pushed. -/
  | resolve (key : Text × Nat) (hkey : key ∈ f.scopes.keys) (hnew : key ∉ f.resolving)
      (hexpanding : g.expanding = f.expanding) (hresolving : g.resolving = key :: f.resolving)
      (hscopes : g.scopes = f.scopes) (hf : f.task.size.1 = 0) (hg : g.task.size.1 = 0)
  /-- The syntax tree is descended. -/
  | descend (hexpanding : g.expanding = f.expanding) (hresolving : g.resolving = f.resolving)
      (hlt : g.task.size.1 < f.task.size.1)
  /-- The expression is descended. -/
  | shrink (hexpanding : g.expanding = f.expanding) (hresolving : g.resolving = f.resolving)
      (hscopes : g.scopes = f.scopes) (heq : g.task.size.1 = f.task.size.1) (hlt : g.task.size.2 < f.task.size.2)

theorem Enters.move (h : Enters f g) : Move f g := by
  cases h with
  | declaration | argument hv | fallback bound hp hv =>
    refine .descend rfl rfl ?_
    simp only [Task.size, Item.declaration.sizeOf_spec, Item.call.sizeOf_spec, Mixin.parametric.sizeOf_spec]
    omega
  | rule hi | atRule hi | plain hi | parametric bound hi =>
    have hlt := List.sizeOf_lt_of_mem hi
    refine .descend rfl rfl ?_
    simp only [Task.size, Item.rule.sizeOf_spec, Item.atRule.sizeOf_spec, Mixin.plain.sizeOf_spec,
      Mixin.parametric.sizeOf_spec]
    omega
  | call args hm hx =>
    obtain ⟨s, hs, hmixin⟩ := Scopes.exists_of_mem_mixinsNamed hm
    refine .expand _ ⟨s, hs, _, hmixin⟩ hx rfl rfl rfl ?_
    simp only [Task.size, Item.call.sizeOf_spec]
    omega
  | definition hfind hr =>
    exact .resolve _ (Scopes.keys_drop_subset _ _ (Scopes.mem_keys_of_find? hfind)) hr rfl rfl rfl rfl rfl
  | expression he => exact .shrink rfl rfl rfl rfl (by simp [Task.size, he, Except.toOption])
  | element he =>
    have hlt := List.sizeOf_lt_of_mem he
    refine .shrink rfl rfl rfl rfl ?_
    simp only [Task.size, Expr.list.sizeOf_spec]
    omega
  | negate | left | right | reference | keyword ht hk =>
    refine .shrink rfl rfl rfl rfl ?_
    simp only [Task.size, Expr.negate.sizeOf_spec, Expr.binary.sizeOf_spec, Expr.reference.sizeOf_spec,
      Expr.function.sizeOf_spec]
    omega

/-- A task reads a smaller part of the syntax tree, or as much of it and a smaller expression. -/
def Task.Below (t u : Task) : Prop := Prod.Lex (· < ·) (· < ·) t.size u.size

/-- An entry pushes a name that is not being expanded, pushes a definition that is not being resolved, or descends. -/
theorem Enters.push_or_below (h : Enters f g) :
    (∃ name, name ∉ f.expanding ∧ g.expanding = name :: f.expanding ∧ g.resolving = f.resolving) ∨
      (∃ key, key ∉ f.resolving ∧ g.resolving = key :: f.resolving ∧ g.expanding = f.expanding) ∨
      (g.expanding = f.expanding ∧ g.resolving = f.resolving ∧ g.task.Below f.task) := by
  cases h.move with
  | expand name _ hnew hexpanding hresolving _ _ => exact .inl ⟨name, hnew, hexpanding, hresolving⟩
  | resolve key _ hnew hexpanding hresolving _ _ _ => exact .inr (.inl ⟨key, hnew, hresolving, hexpanding⟩)
  | descend hexpanding hresolving hlt => exact .inr (.inr ⟨hexpanding, hresolving, .left _ _ hlt⟩)
  | shrink hexpanding hresolving _ heq hlt =>
    refine .inr (.inr ⟨hexpanding, hresolving, ?_⟩)
    rw [Task.Below, Prod.lex_def]
    exact .inr ⟨heq, hlt⟩

/-- What decreases with each entry, in lexicographic order. -/
noncomputable def Frame.rank (names : List Text) (f : Frame) : Nat × Nat × Nat × Nat :=
  ((unguarded f.expanding names).length, f.task.size.1, (unguarded f.resolving f.scopes.keys).length, f.task.size.2)

theorem Enters.rank_lt (hf : f.Within names) (h : Enters f g) :
    WellFoundedRelation.rel (g.rank names) (f.rank names) := by
  cases h.move with
  | expand name hname hnew hexpanding hresolving hscopes hitems =>
    obtain ⟨s, hs, m, hm⟩ := hname
    rw [Frame.rank, hexpanding]
    exact .left _ _ (unguarded_push (hf.scopes s hs name m hm).1 hnew)
  | resolve key hkey hnew hexpanding hresolving hscopes hf hg =>
    rw [Frame.rank, Frame.rank, hexpanding, hf, hg, hscopes, hresolving]
    exact .right _ (.right _ (.left _ _ (unguarded_push hkey hnew)))
  | descend hexpanding hresolving hlt =>
    rw [Frame.rank, hexpanding]
    exact .right _ (.left _ _ hlt)
  | shrink hexpanding hresolving hscopes heq hlt =>
    rw [Frame.rank, Frame.rank, hexpanding, heq, hscopes, hresolving]
    exact .right _ (.right _ (.right _ hlt))

theorem acc_of_within (hf : f.Within names) : Acc (fun g f => Enters f g) f := by
  have hrank := (InvImage.wf (Frame.rank names) WellFoundedRelation.wf).apply f
  induction hrank with
  | intro f _ ih => exact .intro f fun g he => ih g (he.rank_lt hf) (hf.enters he)

theorem exists_within (f : Frame) : ∃ names, f.Within names := by
  refine ⟨f.scopes.flatMap (fun s => s.mixins.flatMap fun q => q.1 :: Item.mixinNamesAll q.2.body) ++
    f.task.mixinNames, ?_, List.subset_append_right _ _⟩
  intro s hs name m hm
  have hsub : name :: Item.mixinNamesAll m.body ⊆
      f.scopes.flatMap (fun s => s.mixins.flatMap fun q => q.1 :: Item.mixinNamesAll q.2.body) :=
    fun n hn => List.mem_flatMap.mpr ⟨s, hs, List.mem_flatMap.mpr ⟨_, hm, hn⟩⟩
  exact ⟨List.mem_append_left _ (hsub (.head _)), fun n hn => List.mem_append_left _ (hsub (.tail _ hn))⟩

theorem wellFounded_enters : WellFounded fun g f : Frame => Enters f g := by
  refine ⟨fun f => ?_⟩
  obtain ⟨names, hf⟩ := exists_within f
  exact acc_of_within hf

def Frame.start (s : Sheet) (i : Item) : Frame := ⟨[.ofItems s.items], [], [], .item [] i⟩

/-- The frames that the evaluation of a sheet may come to. -/
inductive Reachable (s : Sheet) : Frame → Prop
  | start {i : Item} (hi : i ∈ s.items) : Reachable s (.start s i)
  | enter {f g : Frame} (hf : Reachable s f) (he : Enters f g) : Reachable s g

/-- What holds of all frames of an evaluation. -/
structure Frame.Sound (names : List Text) (f : Frame) : Prop where
  within : f.Within names
  expanding_nodup : f.expanding.Nodup
  expanding_subset : f.expanding ⊆ names
  resolving_nodup : f.resolving.Nodup
  /-- Blocks are entered only while no definition is being resolved. -/
  idle : 0 < f.task.size.1 → f.resolving = []

theorem Frame.Sound.enters (hf : f.Sound names) (he : Enters f g) : g.Sound names := by
  have hwithin := hf.within.enters he
  cases he.move with
  | expand name hname hnew hexpanding hresolving hscopes hitems =>
    obtain ⟨s, hs, m, hm⟩ := hname
    have hidle := hresolving.trans (hf.idle hitems)
    refine ⟨hwithin, ?_, ?_, by simp [hidle], fun _ => hidle⟩
    · rw [hexpanding]
      exact List.nodup_cons.mpr ⟨hnew, hf.expanding_nodup⟩
    · rw [hexpanding]
      exact List.cons_subset.mpr ⟨(hf.within.scopes s hs name m hm).1, hf.expanding_subset⟩
  | resolve key hkey hnew hexpanding hresolving hscopes _ hg =>
    refine ⟨hwithin, hexpanding ▸ hf.expanding_nodup, hexpanding ▸ hf.expanding_subset, ?_, ?_⟩
    · rw [hresolving]
      exact List.nodup_cons.mpr ⟨hnew, hf.resolving_nodup⟩
    · intro hpos
      omega
  | descend hexpanding hresolving hlt =>
    have hidle := hresolving.trans (hf.idle (Nat.zero_lt_of_lt hlt))
    exact ⟨hwithin, hexpanding ▸ hf.expanding_nodup, hexpanding ▸ hf.expanding_subset, by simp [hidle],
      fun _ => hidle⟩
  | shrink hexpanding hresolving hscopes heq _ =>
    refine ⟨hwithin, hexpanding ▸ hf.expanding_nodup, hexpanding ▸ hf.expanding_subset,
      hresolving ▸ hf.resolving_nodup, fun hpos => hresolving.trans (hf.idle (heq ▸ hpos))⟩

theorem Reachable.sound {s : Sheet} (h : Reachable s f) : f.Sound (Item.mixinNamesAll s.items) := by
  induction h with
  | start hi =>
    refine ⟨⟨?_, Item.mixinNames_subset hi⟩, .nil, List.nil_subset _, .nil, fun _ => rfl⟩
    intro scope hscope name m hm
    obtain rfl := List.mem_singleton.mp hscope
    exact within_ofItems (List.Subset.refl _) hm
  | enter _ he ih => exact ih.enters he

/-- While a definition is being resolved the scopes stay as they are, and none is dropped from those being resolved. -/
theorem Enters.scopes_eq (hf : f.Sound names) (he : Enters f g) (hg : g.resolving ≠ []) : g.scopes = f.scopes := by
  cases he.move with
  | expand name hname hnew hexpanding hresolving hscopes hitems => exact hscopes
  | resolve key hkey hnew hexpanding hresolving hscopes _ _ => exact hscopes
  | descend hexpanding hresolving hlt =>
    exact absurd (hresolving.trans (hf.idle (Nat.zero_lt_of_lt hlt))) hg
  | shrink hexpanding hresolving hscopes heq _ => exact hscopes

end Guards
end LessCss
