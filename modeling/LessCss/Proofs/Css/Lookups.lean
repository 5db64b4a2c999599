import LessCss.Proofs.Css.CallScopes
import LessCss.Proofs.Css.GuardedRun
import LessCss.Proofs.Expr.Constants
/-!
What a look-up depends on.

A variable is evaluated in the scope that defines it, so what it denotes depends on no scope further in and on no
mixin that is being expanded. Of the definitions that are being resolved the ones further in make no difference
either. The others can only turn a value into a diagnostic (`lookup_at_home`).
-/
namespace LessCss

namespace Guards

def markBindings (R : List (Text × Nat)) (level : Nat) (bs : List (Text × Binding)) : List (Text × Binding) :=
  bs.map fun q => (q.1, q.2.mark ((q.1, level) ∈ R))

def mark (R : List (Text × Nat)) : Scopes → Scopes
  | [] => []
  | s :: outer => { s with bindings := markBindings R outer.length s.bindings } :: mark R outer

variable {R R' : List (Text × Nat)} {S T : Scopes} {X X' : List Text} {depth depth' : Nat} {name : Text}

theorem find?_markBindings (name : Text) (level : Nat) (bs : List (Text × Binding)) :
    (Scope.find? name (markBindings R level bs)).map (·.1) =
      (Scope.find? name bs).map fun q => q.1.mark ((name, level) ∈ R) := by
  induction bs with
  | nil => rfl
  | cons q bs ih =>
    obtain ⟨n, b⟩ := q
    rw [markBindings, List.map_cons, Scope.find?, Scope.find?]
    by_cases hn : n = name
    · simp [hn]
    · rw [if_neg hn, if_neg hn, Option.map_map, Option.map_map]
      exact ih

theorem marked_mark (R : List (Text × Nat)) (S : Scopes) : Marked R S (mark R S) := by
  induction S with
  | nil => exact .nil
  | cons s S ih => exact .cons (fun name => find?_markBindings name S.length s.bindings) ih

theorem mark_append (inner outer : Scopes) : ∃ inner', mark R (inner ++ outer) = inner' ++ mark R outer ∧
    ∀ name, (∀ s ∈ inner, ¬s.Binds name) → ∀ s ∈ inner', ¬s.Binds name := by
  induction inner with
  | nil => exact ⟨[], rfl, fun _ _ s hs => nomatch hs⟩
  | cons s inner ih =>
    obtain ⟨inner', hmark, hbinds⟩ := ih
    refine ⟨_ :: inner', congrArg (_ :: ·) hmark, fun name h => ?_⟩
    rw [List.forall_mem_cons] at h ⊢
    refine ⟨fun hname => h.1 ?_, hbinds name h.2⟩
    simpa [Scope.Binds, markBindings] using hname

/-- A look-up depends on no scope further in than those that bind the variable, and on no mixin that is being
expanded. -/
theorem lookup_append {inner outer inner' : Scopes} (hS : S.outermost depth = inner ++ outer)
    (hinner : ∀ s ∈ inner, ¬s.Binds name) (hT : T.outermost depth' = inner' ++ outer)
    (hinner' : ∀ s ∈ inner', ¬s.Binds name) : lookup S X R depth name = lookup T X' R depth' name := by
  obtain ⟨marks, hmarks, hbinds⟩ := mark_append (R := R) inner outer
  obtain ⟨marks', hmarks', hbinds'⟩ := mark_append (R := R) inner' outer
  rw [lookup_eq_resolve (marked_mark R _), lookup_eq_resolve (marked_mark R _), hS, hT, hmarks, hmarks']
  funext p
  rw [Scopes.resolve_append (hbinds name hinner), Scopes.resolve_append (hbinds' name hinner')]

theorem lookup_eq (name : Text) (p : Position) : lookup S X R depth name p =
    match Scopes.find? name (S.outermost depth) with
    | none => .error ((Fault.undefinedVariable name).blame p)
    | some (.resolved v, _) => .ok v
    | some (.pending, _) => .error ((Fault.recursiveVariable name).blame p)
    | some (.deferred value, home) =>
      if (name, home.length - 1) ∈ R then .error ((Fault.recursiveVariable name).blame p)
      else run ⟨S, X, (name, home.length - 1) :: R, .tokens home.length value⟩ := by
  rw [lookup, run_eq, step]
  split <;> simp [*]

/-- A value stays while fewer definitions are being resolved, by induction on the definitions that are not. -/
theorem lookup_extends (h : R' ⊆ R) : Expr.Extends (lookup S X R depth) (lookup S X R' depth) := by
  induction hn : (unguarded R S.keys).length using Nat.strongRecOn generalizing R R' depth with
  | ind n ih =>
    subst hn
    intro name p
    rw [lookup_eq, lookup_eq]
    split
    · exact .refl _
    · exact .refl _
    · exact .refl _
    · next value home hfind =>
      by_cases hr : (name, home.length - 1) ∈ R
      · rw [if_pos hr]
        exact .error _ _
      · rw [if_neg hr, if_neg fun hr' => hr (h hr'), run_tokens, run_tokens]
        have hkey : (name, home.length - 1) ∈ S.keys :=
          Scopes.keys_drop_subset _ _ (Scopes.mem_keys_of_find? hfind)
        have hinner : Expr.Extends (lookup S X ((name, home.length - 1) :: R) home.length)
            (lookup S X ((name, home.length - 1) :: R') home.length) :=
          ih _ (unguarded_push hkey hr) (List.cons_subset_cons _ h) rfl
        exact (Follows.refl _).bind fun e _ => Expr.evaluate_extends hinner e

/-- A variable is evaluated in the scope that defines it: `s` is the innermost of the `depth` outermost scopes that
binds the name, and `outer.length` is its level. A definition in `s` is evaluated in `s` and the scopes outside of it.
So a look-up from `depth` finds what a look-up from `s` finds, whatever scopes lie further in, as long as they do not
bind the name. A value stays while fewer definitions are being resolved. While none is, a frame looks up what the
scopes resolve. -/
theorem lookup_at_home {inner outer : Scopes} {s : Scope} (hS : S.outermost depth = inner ++ s :: outer)
    (hinner : ∀ t ∈ inner, ¬t.Binds name) (hs : s.Binds name) :
    lookup S X [] depth = (S.outermost depth).resolve ∧
      (∃ b marked, Scope.find? name s.bindings = some (b, marked) ∧
        ∀ value, b = .deferred value → (name, outer.length) ∉ R → ∀ p, lookup S X R depth name p =
          run ⟨S, X, (name, outer.length) :: R, .tokens (outer.length + 1) value⟩) ∧
      lookup S X R depth name = lookup S X R (outer.length + 1) name ∧
      (∀ T X' depth' inner', Scopes.outermost depth' T = inner' ++ s :: outer → (∀ t ∈ inner', ¬t.Binds name) →
        lookup T X' R depth' name = lookup S X R depth name) ∧
      ∀ p v, lookup S X R depth name p = .ok v → ∀ R' ⊆ R, lookup S X R' depth name p = .ok v := by
  have hhome : S.outermost (outer.length + 1) = s :: outer := by
    have hle : (s :: outer).length ≤ (S.outermost depth).length := by simp [hS]
    rw [← List.length_cons, ← outermost_outermost hle, hS, Scopes.outermost, List.length_append, Nat.add_sub_cancel,
      List.drop_left]
  refine ⟨lookup_eq_resolve (.refl _), ?_, ?_, ?_, ?_⟩
  · cases hfind : Scope.find? name s.bindings with
    | none => exact absurd hs (Scope.find?_eq_none_iff.mp hfind)
    | some q =>
      refine ⟨q.1, q.2, rfl, fun value hvalue hr p => ?_⟩
      have hvisible : Scopes.find? name (S.outermost depth) =
          some (.deferred value, { s with bindings := q.2 } :: outer) := by
        rw [hS, Scopes.find?_append hinner, Scopes.find?, hfind, ← hvalue]
      rw [lookup_eq, hvisible]
      exact if_neg hr
  · have hnone : ∀ t ∈ ([] : Scopes), ¬t.Binds name := fun _ ht => absurd ht List.not_mem_nil
    exact lookup_append hS hinner hhome hnone
  · exact fun T X' depth' inner' hT hinner' => lookup_append hT hinner' hS hinner
  · exact fun p v hv R' hR' => lookup_extends hR' name p v hv

/-- A definition of the sheet that is used in a block which redefines a variable that it refers to. -/
theorem lookup_at_home_redefined :
    let top : Scope := ⟨[("a".toList, .deferred [⟨.atKeyword, "@b".toList, ⟨1, 5⟩, true⟩]),
      ("b".toList, .resolved (.keyword "red".toList))], []⟩
    let block : Scope := ⟨[("b".toList, .resolved (.keyword "blue".toList))], []⟩
    let p : Position := ⟨2, 1⟩
    top.Binds "a".toList ∧ ¬block.Binds "a".toList ∧ ¬Scope.empty.Binds "a".toList ∧
      lookup [block, top] [] [("c".toList, 0)] 2 "a".toList = lookup [block, top] [] [("c".toList, 0)] 1 "a".toList ∧
      lookup [.empty, top] [] [("c".toList, 0)] 2 "a".toList = lookup [block, top] [] [("c".toList, 0)] 2 "a".toList ∧
      ((lookup [block, top] [] [] 2 "a".toList p).map Value.render).toOption = some "red".toList := by
  intro top block p
  have hblock : ∀ t ∈ [block], ¬t.Binds "a".toList := by
    intro t ht
    obtain rfl := List.mem_singleton.mp ht
    simp [Scope.Binds, block]
  have htop : top.Binds "a".toList := .head _
  have hvisible : Scopes.outermost 2 [block, top] = [block] ++ top :: [] := rfl
  obtain ⟨hresolve, -, hlevel, hothers, -⟩ :=
    lookup_at_home (X := []) (R := [("c".toList, 0)]) hvisible hblock htop
  refine ⟨htop, hblock block (.head _), List.not_mem_nil, hlevel, ?_, ?_⟩
  · exact hothers [.empty, top] [] 2 [.empty] rfl (by simp [Scope.Binds, Scope.empty])
  · rw [hresolve]
    decide +kernel

end Guards
end LessCss
