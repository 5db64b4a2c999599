import LessCss.Compile
import LessCss.Proofs.Css.Places
import LessCss.Proofs.Css.Size
import LessCss.Proofs.Css.Steps
/-!
What the body of a mixin sees of the scopes of its call.

The scopes of a call lie outside of those of the body. So a variable that the body leaves open denotes what it denotes
at the call, and that is the definition of the sheet exactly when no block or parameter around the call binds the name
(`Mixin.body_denotes`). Of the scopes of a call nothing counts but what names denote in them (`expand_sameView`).
-/
namespace LessCss

/-- A scope binds a variable. -/
def Scope.Binds (s : Scope) (name : Text) : Prop := name ∈ s.bindings.map (·.1)

theorem Scope.find?_eq_none_iff {name : Text} {bs : List (Text × Binding)} :
    Scope.find? name bs = none ↔ name ∉ bs.map (·.1) := by
  induction bs with
  | nil => simp [Scope.find?]
  | cons b bs ih =>
    obtain ⟨n, b⟩ := b
    rw [Scope.find?, List.map_cons, List.mem_cons]
    by_cases hn : n = name
    · simp [hn]
    · simp [hn, Ne.symm hn, ih]

namespace Scopes

variable {inner outer : Scopes} {name : Text}

theorem find?_append (h : ∀ s ∈ inner, ¬s.Binds name) : find? name (inner ++ outer) = find? name outer := by
  induction inner with
  | nil => rfl
  | cons s inner ih =>
    rw [List.forall_mem_cons] at h
    rw [List.cons_append, find?, Scope.find?_eq_none_iff.mpr h.1]
    exact ih h.2

/-- Scopes further in that do not bind a variable do not change what it denotes. -/
theorem resolve_append (h : ∀ s ∈ inner, ¬s.Binds name) (p : Position) :
    resolve (inner ++ outer) name p = resolve outer name p := by
  rw [resolve_eq, resolve_eq, find?_append h]

theorem length_of_find? {scopes home : Scopes} {b : Binding} (h : find? name scopes = some (b, home)) :
    home.length ≤ scopes.length := by
  induction scopes with
  | nil => exact nomatch h
  | cons s outer ih =>
    rw [find?] at h
    split at h
    · obtain ⟨-, rfl⟩ := Prod.mk.inj (Option.some.inj h)
      exact Nat.le_refl _
    · exact Nat.le_succ_of_le (ih h)

/-- A variable that scopes further in bind is found in them. -/
theorem exists_find?_append (outer : Scopes) (h : ∃ s ∈ inner, s.Binds name) :
    ∃ b home, find? name (inner ++ outer) = some (b, home) ∧ outer.length < home.length := by
  induction inner with
  | nil =>
    obtain ⟨s, hs, -⟩ := h
    exact nomatch hs
  | cons s inner ih =>
    rw [List.cons_append, find?]
    cases hs : Scope.find? name s.bindings with
    | some q =>
      refine ⟨_, _, rfl, ?_⟩
      rw [List.length_cons, List.length_append]
      omega
    | none =>
      obtain ⟨s', hs', hbinds⟩ := h
      rcases List.mem_cons.mp hs' with rfl | hs'
      · exact absurd hbinds (Scope.find?_eq_none_iff.mp hs)
      · exact ih ⟨s', hs', hbinds⟩

/-- The same binding is found from further in exactly when no scope in between binds the variable. -/
theorem find?_append_eq_iff : find? name (inner ++ outer) = find? name outer ↔ ∀ s ∈ inner, ¬s.Binds name := by
  constructor
  · intro h s hs hbinds
    obtain ⟨b, home, hfind, hlt⟩ := exists_find?_append outer ⟨s, hs, hbinds⟩
    have hle := length_of_find? (h ▸ hfind)
    omega
  · exact find?_append

end Scopes

namespace Mixin

/-- The names that a call binds. -/
def parameterNames : Mixin → List Text
  | plain _ => []
  | parametric params _ => "arguments".toList :: params.map (·.name)

/-- The scopes that a call adds to its own. -/
def layers (outer : Scopes) (args : List Value) : Mixin → Except Diagnostic Scopes
  | plain body => .ok [.ofItems body]
  | parametric params body => do .ok [.ofItems body, ← parameterScope outer params args]

theorem bodyScopes_eq (outer : Scopes) (args : List Value) (m : Mixin) :
    m.bodyScopes outer args = (m.layers outer args).map (· ++ outer) := by
  cases m with
  | plain body => rfl
  | parametric params body =>
    rw [bodyScopes, layers]
    cases parameterScope outer params args <;> rfl

theorem binds_of_bindFallbacks {outer : Scopes} {scope scope' : Scope} {ps : List Parameter} {vs : List Value}
    {name : Text} (h : bindFallbacks outer scope ps = .ok (scope', vs)) (hname : scope'.Binds name) :
    scope.Binds name ∨ name ∈ ps.map (·.name) := by
  induction ps generalizing scope vs with
  | nil =>
    obtain ⟨rfl, -⟩ := Prod.mk.inj (Except.ok.inj h)
    exact .inl hname
  | cons p ps ih =>
    rw [bindFallbacks] at h
    split at h
    · exact (ih h).imp_right (List.mem_cons_of_mem _)
    · next value hvalue =>
      obtain ⟨v, -, hv⟩ := bind_eq_ok h
      obtain ⟨⟨inner, ws⟩, hrest, heq⟩ := bind_eq_ok hv
      obtain ⟨rfl, -⟩ := Prod.mk.inj (Except.ok.inj heq)
      rcases ih hrest with hbind | hps
      · rcases List.mem_cons.mp hbind with rfl | hscope
        · exact .inr (.head _)
        · exact .inl hscope
      · exact .inr (.tail _ hps)

theorem binds_of_boundArguments {params : List Parameter} {args : List Value} {name : Text}
    (h : (Scope.ofValues (boundArguments params args)).Binds name) : name ∈ params.map (·.name) := by
  obtain ⟨q, hq, rfl⟩ := List.mem_map.mp h
  obtain ⟨⟨n, v⟩, hbound, rfl⟩ := List.mem_map.mp hq
  obtain ⟨⟨param, v'⟩, hparam, heq⟩ := List.mem_map.mp (List.mem_reverse.mp hbound)
  obtain ⟨rfl, rfl⟩ := Prod.mk.inj heq
  exact List.mem_map.mpr ⟨param, (List.of_mem_zip hparam).1, rfl⟩

theorem binds_of_parameterScope {outer : Scopes} {scope : Scope} {params : List Parameter} {args : List Value}
    {name : Text} (h : parameterScope outer params args = .ok scope) (hname : scope.Binds name) :
    name ∈ "arguments".toList :: params.map (·.name) := by
  obtain ⟨⟨inner, vs⟩, hfallbacks, heq⟩ := bind_eq_ok h
  obtain rfl := Except.ok.inj heq
  rcases List.mem_cons.mp hname with rfl | hname
  · exact .head _
  · refine .tail _ ?_
    rcases binds_of_bindFallbacks hfallbacks hname with hbind | hps
    · rw [bindArguments_eq] at hbind
      exact binds_of_boundArguments hbind
    · obtain ⟨param, hparam, rfl⟩ := List.mem_map.mp hps
      exact List.mem_map.mpr ⟨param, List.mem_of_mem_drop hparam, rfl⟩

/-- A call binds the names of the parameters and of the definitions in the body. -/
theorem binds_of_layers {outer layers : Scopes} {args : List Value} {m : Mixin} {name : Text}
    (h : m.layers outer args = .ok layers) (hname : ∃ s ∈ layers, s.Binds name) :
    name ∈ m.parameterNames ∨ (Scope.ofItems m.body).Binds name := by
  obtain ⟨s, hs, hbinds⟩ := hname
  cases m with
  | plain body =>
    obtain rfl := Except.ok.inj h
    obtain rfl := List.mem_singleton.mp hs
    exact .inr hbinds
  | parametric params body =>
    obtain ⟨scope, hscope, heq⟩ := bind_eq_ok h
    obtain rfl := Except.ok.inj heq
    rcases List.mem_cons.mp hs with rfl | hs
    · exact .inr hbinds
    · obtain rfl := List.mem_singleton.mp hs
      exact .inl (binds_of_parameterScope hscope hbinds)

end Mixin

theorem Scope.names_of_find? {name : Text} {bs marked : List (Text × Binding)} {b : Binding}
    (h : Scope.find? name bs = some (b, marked)) : marked.map (·.1) = bs.map (·.1) := by
  induction bs generalizing marked with
  | nil => exact nomatch h
  | cons c bs ih =>
    obtain ⟨n, c⟩ := c
    rw [Scope.find?] at h
    split at h
    · obtain ⟨-, rfl⟩ := Prod.mk.inj (Option.some.inj h)
      rfl
    · obtain ⟨⟨found, rest⟩, hrest, heq⟩ := Option.map_eq_some_iff.mp h
      obtain ⟨rfl, rfl⟩ := Prod.mk.inj heq
      rw [List.map_cons, List.map_cons, ih hrest]

namespace Scopes

/-- Names denote the same in two contexts. -/
structure SameView (S T : Scopes) : Prop where
  resolve : S.resolve = T.resolve
  mixins : ∀ name, S.mixinsNamed name = T.mixinsNamed name

/-- Names denote the same in two contexts, except perhaps a variable. -/
structure SameViewExcept (hidden : Text) (S T : Scopes) : Prop where
  resolve : ∀ name, name ≠ hidden → S.resolve name = T.resolve name
  mixins : ∀ name, S.mixinsNamed name = T.mixinsNamed name

variable {S T : Scopes}

theorem evaluate_congr (h : S.resolve = T.resolve) : S.evaluate = T.evaluate := by
  funext value
  rw [Scopes.evaluate, Scopes.evaluate, h]

theorem SameView.evaluate (h : SameView S T) : S.evaluate = T.evaluate := evaluate_congr h.resolve

/-- A block sees the same in two contexts that differ in names that it binds at most, by induction on its definitions
that are not being evaluated. -/
theorem resolve_cons {s : Scope} (h : ∀ name, ¬s.Binds name → resolve S name = resolve T name) :
    resolve (s :: S) = resolve (s :: T) := by
  induction hn : Scope.deferredCount s.bindings using Nat.strongRecOn generalizing s with
  | ind n ih =>
    subst hn
    funext name p
    rw [resolve_eq, resolve_eq, find?, find?]
    cases hs : Scope.find? name s.bindings with
    | none =>
      have hname := h name (Scope.find?_eq_none_iff.mp hs)
      dsimp only
      rw [← resolve_eq, ← resolve_eq, hname]
    | some q =>
      obtain ⟨b, marked⟩ := q
      cases b with
      | deferred value =>
        have hmarked : ∀ other, ¬({ s with bindings := marked } : Scope).Binds other →
            resolve S other = resolve T other := by
          intro other hother
          rw [Scope.Binds, Scope.names_of_find? hs] at hother
          exact h other hother
        have hhome := ih _ (Scope.deferredCount_find? hs) hmarked rfl
        dsimp only
        rw [hhome]
      | pending => rfl
      | resolved v => rfl

theorem mixinsNamed_cons (h : ∀ name, S.mixinsNamed name = T.mixinsNamed name) (s : Scope) (name : Text) :
    mixinsNamed (s :: S) name = mixinsNamed (s :: T) name := by
  have hname := h name
  simp only [mixinsNamed, List.map_cons, List.find?_cons] at hname ⊢
  cases (s.mixinsNamed name).isEmpty with
  | true => exact hname
  | false => rfl

theorem SameView.cons (h : SameView S T) (s : Scope) : SameView (s :: S) (s :: T) :=
  ⟨resolve_cons fun name _ => congrFun h.resolve name, mixinsNamed_cons h.mixins s⟩

/-- A scope that binds a variable hides what the variable denotes outside. -/
theorem SameViewExcept.hide {hidden : Text} (h : SameViewExcept hidden S T) {s : Scope} (hs : s.Binds hidden) :
    SameView (s :: S) (s :: T) := by
  refine ⟨resolve_cons ?_, mixinsNamed_cons h.mixins s⟩
  rintro name hname
  refine h.resolve name ?_
  rintro rfl
  exact hname hs

theorem SameView.append (h : SameView S T) (inner : Scopes) : SameView (inner ++ S) (inner ++ T) := by
  induction inner with
  | nil => exact h
  | cons s inner ih => exact ih.cons s

end Scopes

open Scopes (SameView SameViewExcept)

variable {S T : Scopes}

namespace Mixin

theorem bindFallbacks_congr (h : S.resolve = T.resolve) (scope : Scope) (ps : List Parameter) :
    bindFallbacks S scope ps = bindFallbacks T scope ps := by
  induction ps generalizing scope with
  | nil => rfl
  | cons p ps ih =>
    rw [bindFallbacks, bindFallbacks]
    cases p.fallback with
    | none => exact ih scope
    | some value =>
      have hscope : Scopes.evaluate (scope :: S) = Scopes.evaluate (scope :: T) :=
        Scopes.evaluate_congr (Scopes.resolve_cons fun name _ => congrFun h name)
      simp only [hscope, ih]

/-- The parameters of a call depend on what variables denote at the call. -/
theorem parameterScope_congr (h : S.resolve = T.resolve) (params : List Parameter) (args : List Value) :
    parameterScope S params args = parameterScope T params args := by
  rw [parameterScope, parameterScope, bindFallbacks_congr h]

theorem layers_sameView (h : SameView S T) (args : List Value) (m : Mixin) : m.layers S args = m.layers T args := by
  cases m with
  | plain body => rfl
  | parametric params body => rw [layers, layers, parameterScope_congr h.resolve]

end Mixin

/-- What calls yield does not depend on more of their context than what names denote in it. -/
def ReadsView (calls : Expansion) : Prop :=
  ∀ {S T : Scopes}, SameView S T → ∀ selectors c, calls S selectors c = calls T selectors c

variable {calls : Expansion}

namespace Item

mutual

theorem yield_sameView (hcalls : ReadsView calls) {S T : Scopes} (h : SameView S T) (selectors : List Text) (i : Item) :
    yield calls S selectors i = yield calls T selectors i := by
  cases i with
  | declaration d => rw [yield, yield, Declaration.evaluate, Declaration.evaluate, h.evaluate]
  | definition d => rfl
  | call c => exact hcalls h selectors c
  | rule own body => rw [yield, yield, yieldAll_sameView hcalls (h.cons _) _ body]
  | atRule name params body => rw [yield, yield, yieldAll_sameView hcalls (h.cons _) _ body]
  | mixin name params body => rfl

theorem yieldAll_sameView (hcalls : ReadsView calls) {S T : Scopes} (h : SameView S T) (selectors : List Text)
    (is : List Item) : yieldAll calls S selectors is = yieldAll calls T selectors is := by
  cases is with
  | nil => rfl
  | cons i is => rw [yieldAll, yieldAll, yield_sameView hcalls h selectors i, yieldAll_sameView hcalls h selectors is]

end

end Item

theorem Mixin.yieldAll_sameView (hcalls : ReadsView calls) (h : SameView S T) (selectors : List Text)
    (args : List Value) (ms : List Mixin) :
    Mixin.yieldAll calls S selectors args ms = Mixin.yieldAll calls T selectors args ms := by
  induction ms with
  | nil => rfl
  | cons m ms ih =>
    rw [Mixin.yieldAll, Mixin.yieldAll, bodyScopes_eq, bodyScopes_eq, layers_sameView h, ih]
    cases m.layers T args with
    | error d => rfl
    | ok layers =>
      have hbody := Item.yieldAll_sameView hcalls (h.append layers) selectors m.body
      show (do let y ← Item.yieldAll calls (layers ++ S) selectors m.body; _) = _
      rw [hbody]
      rfl

/-- Calls read no more of their context than what names denote in it, by induction on the names that may be called. -/
theorem expand_sameView (callable : List Text) : ReadsView (expand callable) := by
  induction hn : callable.length using Nat.strongRecOn generalizing callable with
  | ind n ih =>
    subst hn
    intro S T h selectors c
    rw [expand_eq, expand_eq, h.mixins, h.evaluate]
    by_cases hc : c.name ∈ callable
    · have hyield := Mixin.yieldAll_sameView (ih _ (without_length hc) _ rfl) h selectors
      simp only [hyield]
    · simp only [if_pos hc]

/-- A variable that a mixin leaves open denotes in its body, and in the blocks of the body that leave it open, what it
denotes at the call. It is found in the scopes `outer` exactly when no scope of the call inside of them binds it, and
then it denotes what it denotes there. Another definition around a call changes what the call yields only if some name
denotes something else at the call, and not if a scope further in hides it. -/
theorem Mixin.body_denotes {m : Mixin} {args : List Value} {inner outer scopes blocks : Scopes} {name : Text}
    (hscopes : m.bodyScopes (inner ++ outer) args = .ok scopes) (hparams : name ∉ m.parameterNames)
    (hbody : ¬(Scope.ofItems m.body).Binds name) (hblocks : ∀ s ∈ blocks, ¬s.Binds name) :
    Scopes.resolve (blocks ++ scopes) name = Scopes.resolve (inner ++ outer) name ∧
      (Scopes.find? name (blocks ++ scopes) = Scopes.find? name outer ↔ ∀ s ∈ inner, ¬s.Binds name) ∧
      ((∀ s ∈ inner, ¬s.Binds name) → Scopes.resolve (blocks ++ scopes) name = Scopes.resolve outer name) ∧
      (∀ T, SameView (inner ++ outer) T → ∀ callable selectors c,
        expand callable (inner ++ outer) selectors c = expand callable T selectors c) ∧
      ∀ T s, SameViewExcept name (inner ++ outer) T → s.Binds name → ∀ callable selectors c,
        expand callable (s :: (inner ++ outer)) selectors c = expand callable (s :: T) selectors c := by
  rw [bodyScopes_eq] at hscopes
  obtain ⟨layers, hlayers, rfl⟩ := map_eq_ok hscopes
  have hopen : ∀ s ∈ blocks ++ layers, ¬s.Binds name := by
    intro s hs hbinds
    rcases List.mem_append.mp hs with hs | hs
    · exact hblocks s hs hbinds
    · exact (binds_of_layers hlayers ⟨s, hs, hbinds⟩).elim hparams hbody
  have hcall : Scopes.resolve (blocks ++ (layers ++ (inner ++ outer))) name =
      Scopes.resolve (inner ++ outer) name := by
    funext p
    rw [← List.append_assoc, Scopes.resolve_append hopen]
  refine ⟨hcall, ?_, ?_, fun T hT callable selectors c => expand_sameView callable hT selectors c,
    fun T s hT hs callable selectors c => expand_sameView callable (hT.hide hs) selectors c⟩
  · rw [← List.append_assoc, Scopes.find?_append hopen, Scopes.find?_append_eq_iff]
  · intro hinner
    rw [hcall]
    funext p
    exact Scopes.resolve_append hinner p

/-- In the body of a mixin that is called from a block without definitions, a variable of the sheet is that of the
sheet. -/
theorem Mixin.body_denotes_sheet :
    let atV : Token := ⟨.atKeyword, "@v".toList, ⟨1, 1⟩, true⟩
    let body : List Item := [.declaration ⟨"color".toList, [atV], false⟩]
    let top : Scope := .ofItems [.definition ⟨"v".toList, [⟨.ident, "red".toList, ⟨1, 1⟩, true⟩]⟩]
    let block : Scope := .ofItems [.call ⟨".m".toList, [], false, ⟨1, 1⟩⟩]
    Scopes.resolve [.ofItems body, block, top] "v".toList = Scopes.resolve [top] "v".toList := by
  intro atV body top block
  have hblock : ∀ s ∈ [block], ¬s.Binds "v".toList := by
    intro s hs
    obtain rfl := List.mem_singleton.mp hs
    exact nofun
  exact (@body_denotes (.plain body) [] [block] [top] [.ofItems body, block, top] [] "v".toList
    rfl nofun nofun nofun).2.2.1 hblock

/-- A definition in the block of a call changes what the call yields, although the sheet defines the variable. -/
theorem compile_local_definition :
    (compile .pretty "@v: red; .m \x7b color: @v; \x7d a \x7b .m; \x7d".toList).toOption =
        some ".m \x7b\n  color: red;\n\x7d\na \x7b\n  color: red;\n\x7d\n".toList ∧
      (compile .pretty "@v: red; .m \x7b color: @v; \x7d a \x7b @v: blue; .m; \x7d".toList).toOption =
        some ".m \x7b\n  color: red;\n\x7d\na \x7b\n  color: blue;\n\x7d\n".toList := by
  decide +kernel

end LessCss
