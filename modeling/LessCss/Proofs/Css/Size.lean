import LessCss.Css.Evaluation
import LessCss.Proofs.Outcome
/-!
How many declarations there are.

Only a call makes declarations of its own. What is evaluated without calls has no more declarations than the
sheet it comes from (`Sheet.evaluate_size`).
-/
namespace LessCss

namespace Css.Node

mutual

/-- The number of properties in a node, at any depth. -/
def size : Node → Nat
  | rule _ properties => properties.length
  | atRule _ _ properties children => properties.length + sizeAll children
  | directive .. => 0

def sizeAll : List Node → Nat
  | [] => 0
  | n :: ns => size n + sizeAll ns

end

@[simp] theorem sizeAll_nil : sizeAll [] = 0 := rfl

@[simp] theorem sizeAll_cons (n : Node) (ns : List Node) : sizeAll (n :: ns) = n.size + sizeAll ns := rfl

@[simp] theorem sizeAll_append (ns ms : List Node) : sizeAll (ns ++ ms) = sizeAll ns + sizeAll ms := by
  induction ns with
  | nil => simp
  | cons n ns ih => simp [ih, Nat.add_assoc]

end Css.Node

open Css.Node (sizeAll)

namespace Item

mutual

/-- The number of declarations in an item, at any depth. -/
def size : Item → Nat
  | declaration _ => 1
  | rule _ body => sizeAll body
  | atRule _ _ body => sizeAll body
  | mixin _ _ body => sizeAll body
  | _ => 0

def sizeAll : List Item → Nat
  | [] => 0
  | i :: is => size i + sizeAll is

end

mutual

/-- Nothing in the item is a call. -/
def CallFree : Item → Prop
  | call _ => False
  | rule _ body => CallFreeAll body
  | atRule _ _ body => CallFreeAll body
  | mixin _ _ body => CallFreeAll body
  | _ => True

def CallFreeAll : List Item → Prop
  | [] => True
  | i :: is => CallFree i ∧ CallFreeAll is

end

end Item

namespace Yield

/-- The number of properties that are yielded, inside nodes or not. -/
def size (y : Yield) : Nat := y.properties.length + sizeAll y.nodes

theorem size_append (y z : Yield) : (y ++ z).size = y.size + z.size := by
  change (y.properties ++ z.properties).length + sizeAll (y.nodes ++ z.nodes) = _
  simp only [List.length_append, Css.Node.sizeAll_append, size]
  omega

theorem size_underRule (selectors : List Text) (y : Yield) : sizeAll (y.underRule selectors) = y.size := by
  cases h : y.properties with
  | nil => simp [underRule, size, h]
  | cons p ps => simp [underRule, size, h, Css.Node.size]

theorem size_underAtRule (name params : Text) (selectors : List Text) (y : Yield) :
    (y.underAtRule name params selectors).size = y.size := by
  cases h : selectors.isEmpty with
  | true => simp [underAtRule, h, Css.Node.size, size]
  | false => simp [underAtRule, h, Css.Node.size, size_underRule]

end Yield

namespace Item

mutual

theorem yield_size {calls : Expansion} {scopes : Scopes} {selectors : List Text} {i : Item} {y : Yield}
    (hi : i.CallFree) (h : yield calls scopes selectors i = .ok y) : y.size ≤ i.size := by
  cases i with
  | declaration d =>
    obtain ⟨p, _, rfl⟩ := map_eq_ok h
    simp [Yield.size, size]
  | definition d =>
    obtain rfl := Except.ok.inj h
    simp [Yield.none, Yield.size]
  | call c => exact absurd hi id
  | mixin name params body =>
    obtain rfl := Except.ok.inj h
    simp [Yield.none, Yield.size]
  | rule own body =>
    obtain ⟨z, hz, hy⟩ := bind_eq_ok h
    obtain rfl := Except.ok.inj hy
    have hbody := yieldAll_size hi hz
    simpa [Yield.size, Yield.size_underRule, size] using hbody
  | atRule name params body =>
    obtain ⟨z, hz, hy⟩ := bind_eq_ok h
    obtain rfl := Except.ok.inj hy
    have hbody := yieldAll_size hi hz
    have hunder := z.size_underAtRule name params selectors
    simp only [Yield.size, Css.Node.sizeAll_cons, hunder, size]
    simpa [Yield.size] using hbody

theorem yieldAll_size {calls : Expansion} {scopes : Scopes} {selectors : List Text} {is : List Item} {y : Yield}
    (hi : CallFreeAll is) (h : yieldAll calls scopes selectors is = .ok y) : y.size ≤ Item.sizeAll is := by
  cases is with
  | nil =>
    obtain rfl := Except.ok.inj h
    simp [Yield.none, Yield.size]
  | cons i is =>
    obtain ⟨z, hz, hrest⟩ := bind_eq_ok h
    obtain ⟨w, hw, hy⟩ := bind_eq_ok hrest
    obtain rfl := Except.ok.inj hy
    have hfirst := yield_size hi.1 hz
    have hothers := yieldAll_size hi.2 hw
    rw [Yield.size_append, sizeAll]
    omega

end

end Item

namespace Statement

/-- The number of declarations in a statement. -/
def size (s : Statement) : Nat := s.toItem?.elim 0 Item.size

/-- Nothing in the statement is a call. -/
def CallFree (s : Statement) : Prop := ∀ i ∈ s.toItem?, i.CallFree

theorem nodesOf_size {calls : Expansion} {scopes : Scopes} {s : Statement} {ns : List Css.Node}
    (hs : s.CallFree) (h : Sheet.nodesOf calls scopes s = .ok ns) : sizeAll ns ≤ s.size := by
  cases s with
  | directive d =>
    obtain rfl := Except.ok.inj h
    simp [Css.Node.size]
  | definition d =>
    obtain rfl := Except.ok.inj h
    simp
  | call c => exact absurd (hs (.call c) rfl) id
  | mixin name params body =>
    obtain rfl := Except.ok.inj h
    simp
  | rule selectors body =>
    obtain ⟨y, hy, rfl⟩ := map_eq_ok h
    have hsize := Item.yield_size (hs _ rfl) hy
    exact Nat.le_trans (Nat.le_add_left ..) hsize
  | atRule name params body =>
    obtain ⟨y, hy, rfl⟩ := map_eq_ok h
    have hsize := Item.yield_size (hs _ rfl) hy
    exact Nat.le_trans (Nat.le_add_left ..) hsize

end Statement

/-- The number of declarations in a sheet. -/
def Sheet.size (s : Sheet) : Nat := (s.map Statement.size).foldr (· + ·) 0

/-- Evaluation makes no declarations where there are no calls. -/
theorem Sheet.evaluate_size {s : Sheet} {ns : List Css.Node} (hs : ∀ x ∈ s, x.CallFree) (h : s.evaluate = .ok ns) :
    sizeAll ns ≤ s.size := by
  obtain ⟨parts, hparts, rfl⟩ := map_eq_ok h
  generalize expand (Item.mixinNamesAll s.items) = calls at hparts
  generalize [Scope.ofItems s.items] = scopes at hparts
  clear h
  induction s generalizing parts with
  | nil =>
    obtain rfl := Except.ok.inj hparts
    simp
  | cons x s ih =>
    simp only [List.forall_mem_cons] at hs
    obtain ⟨ns, others, hns, hothers, rfl⟩ := mapM_cons_eq_ok hparts
    have hfirst := Statement.nodesOf_size hs.1 hns
    have hsecond := ih hs.2 others hothers
    simp only [Sheet.size, List.flatten_cons, Css.Node.sizeAll_append, List.map_cons, List.foldr_cons] at hsecond ⊢
    omega

end LessCss
