import LessCss.Proofs.Css.Steps
import LessCss.Proofs.Sheet.Items
/-!
Where the names in a style sheet come from.

Evaluation makes selectors and values, but the names of declarations and the heads of at-rules and directives are
taken over as they stand in the sheet (`Sheet.evaluate_uses`). No directive comes to stand in a block, and no rule
is left without properties.
-/
namespace LessCss

/-- What is asked of the names of declarations and of the heads of at-rules and directives. -/
structure Vocabulary where
  property : Text → Prop
  head : Text → Text → Prop

namespace Css

mutual

/-- A node that may stand in a block, all names in which are of a vocabulary. -/
def Node.Uses (v : Vocabulary) : Node → Prop
  | .rule _ properties => properties ≠ [] ∧ ∀ p ∈ properties, v.property p.name
  | .atRule name params properties children =>
    v.head name params ∧ (∀ p ∈ properties, v.property p.name) ∧ UsesAll v children
  | .directive .. => False

def Node.UsesAll (v : Vocabulary) : List Node → Prop
  | [] => True
  | n :: ns => Node.Uses v n ∧ UsesAll v ns

end

/-- A node of a style sheet may also be a directive. -/
def Node.UsesOutside (v : Vocabulary) : Node → Prop
  | .directive name params => v.head name params
  | n => n.Uses v

theorem Node.usesAll_iff {v : Vocabulary} {ns : List Node} : UsesAll v ns ↔ ∀ n ∈ ns, n.Uses v := by
  induction ns with
  | nil => simp [UsesAll]
  | cons n ns ih => simp [UsesAll, ih]

theorem Node.Uses.outside {v : Vocabulary} {n : Node} (h : n.Uses v) : n.UsesOutside v := by
  cases n with
  | directive => exact h.elim
  | rule | atRule => exact h

end Css

variable {v : Vocabulary}

/-- The constructs of a sheet that use a vocabulary. -/
def Vocabulary.criterion (v : Vocabulary) : Criterion where
  header h := ∀ name params, h = .atRule name params → v.head name params
  declaration d := v.property d.name
  directive d := v.head d.name d.params

namespace Yield

/-- What a body contributes uses a vocabulary. -/
structure Uses (v : Vocabulary) (y : Yield) : Prop where
  properties : ∀ p ∈ y.properties, v.property p.name
  nodes : ∀ n ∈ y.nodes, n.Uses v

theorem Uses.none (v : Vocabulary) : Yield.none.Uses v := ⟨nofun, nofun⟩

theorem Uses.append {y z : Yield} (hy : y.Uses v) (hz : z.Uses v) : (y ++ z).Uses v where
  properties := List.forall_mem_append.mpr ⟨hy.properties, hz.properties⟩
  nodes := List.forall_mem_append.mpr ⟨hy.nodes, hz.nodes⟩

theorem Uses.important {y : Yield} (h : y.Uses v) : y.important.Uses v where
  properties := List.forall_mem_map.mpr h.properties
  nodes := h.nodes

theorem Uses.underRule {y : Yield} (h : y.Uses v) (selectors : List Text) : ∀ n ∈ y.underRule selectors, n.Uses v := by
  unfold Yield.underRule
  refine List.forall_mem_append.mpr ⟨?_, h.nodes⟩
  split
  · exact nofun
  · next hne => exact List.forall_mem_singleton.mpr ⟨by simpa using hne, h.properties⟩

theorem Uses.underAtRule {y : Yield} (h : y.Uses v) {name params : Text} (hhead : v.head name params)
    (selectors : List Text) : (y.underAtRule name params selectors).Uses v := by
  unfold Yield.underAtRule
  split
  · exact ⟨hhead, h.properties, Css.Node.usesAll_iff.mpr h.nodes⟩
  · exact ⟨hhead, nofun, Css.Node.usesAll_iff.mpr (h.underRule selectors)⟩

end Yield

namespace Scopes

/-- The bodies of all mixins in scope meet a criterion. -/
def Meet (c : Criterion) (S : Scopes) : Prop := ∀ s ∈ S, ∀ q ∈ s.mixins, Item.MeetsAll c q.2.body

variable {c : Criterion} {S : Scopes}

theorem Meet.items (hS : S.Meet c) {is : List Item} (h : Item.MeetsAll c is) : Meet c (.ofItems is :: S) := by
  rw [Item.meetsAll_iff] at h
  refine List.forall_mem_cons.mpr ⟨fun q hq => ?_, hS⟩
  rcases Scope.exists_mixin hq with ⟨selector, body, hrule, rfl⟩ | ⟨name, params, body, hmixin, rfl⟩
  · exact (h _ hrule).2
  · exact (h _ hmixin).2

theorem Meet.values (hS : S.Meet c) (bound : List (Text × Value)) : Meet c (.ofValues bound :: S) :=
  List.forall_mem_cons.mpr ⟨nofun, hS⟩

theorem Meet.bodyScopes (hS : S.Meet c) {m : Mixin} (hm : Item.MeetsAll c m.body) {args : List Value} {T : Scopes}
    (h : m.bodyScopes S args = .ok T) : T.Meet c := by
  cases m with
  | plain body =>
    obtain rfl := Except.ok.inj h
    exact hS.items hm
  | parametric params body =>
    obtain ⟨scope, hscope, heq⟩ := bind_eq_ok h
    obtain rfl := Except.ok.inj heq
    obtain ⟨bound, rfl⟩ := Mixin.ofValues_of_parameterScope hscope
    exact (hS.values bound).items hm

theorem Meet.mixin (hS : S.Meet c) {name : Text} {m : Mixin} (hm : m ∈ S.mixinsNamed name) :
    Item.MeetsAll c m.body := by
  obtain ⟨s, hs, hmixin⟩ := exists_of_mem_mixinsNamed hm
  exact hS s hs _ hmixin

end Scopes

/-- Whatever calls yield uses a vocabulary, if the mixins in scope do. -/
def Expansion.Uses (v : Vocabulary) (calls : Expansion) : Prop :=
  ∀ S selectors k y, Scopes.Meet v.criterion S → calls S selectors k = .ok y → y.Uses v

variable {calls : Expansion}

namespace Item

mutual

theorem yield_uses (hcalls : calls.Uses v) {S : Scopes} {selectors : List Text} {i : Item} {y : Yield}
    (hi : i.Meets v.criterion) (hS : S.Meet v.criterion) (h : yield calls S selectors i = .ok y) : y.Uses v := by
  cases i with
  | declaration d =>
    obtain ⟨p, hp, rfl⟩ := map_eq_ok h
    obtain ⟨w, -, rfl⟩ := map_eq_ok hp
    exact ⟨List.forall_mem_singleton.mpr hi, nofun⟩
  | definition d =>
    obtain rfl := Except.ok.inj h
    exact .none v
  | call k => exact hcalls S selectors k y hS h
  | rule own body =>
    obtain ⟨z, hz, heq⟩ := bind_eq_ok h
    obtain rfl := Except.ok.inj heq
    exact ⟨nofun, (yieldAll_uses hcalls hi.2 (hS.items hi.2) hz).underRule _⟩
  | atRule name params body =>
    obtain ⟨z, hz, heq⟩ := bind_eq_ok h
    obtain rfl := Except.ok.inj heq
    have hz := yieldAll_uses hcalls hi.2 (hS.items hi.2) hz
    exact ⟨nofun, List.forall_mem_singleton.mpr (hz.underAtRule (hi.1 name params rfl) selectors)⟩
  | mixin name params body =>
    obtain rfl := Except.ok.inj h
    exact .none v

theorem yieldAll_uses (hcalls : calls.Uses v) {S : Scopes} {selectors : List Text} {is : List Item} {y : Yield}
    (his : MeetsAll v.criterion is) (hS : S.Meet v.criterion) (h : yieldAll calls S selectors is = .ok y) : y.Uses v := by
  cases is with
  | nil =>
    obtain rfl := Except.ok.inj h
    exact .none v
  | cons i is =>
    obtain ⟨z, hz, hrest⟩ := bind_eq_ok h
    obtain ⟨w, hw, heq⟩ := bind_eq_ok hrest
    obtain rfl := Except.ok.inj heq
    exact (yield_uses hcalls his.1 hS hz).append (yieldAll_uses hcalls his.2 hS hw)

end

end Item

theorem Mixin.yieldAll_uses (hcalls : calls.Uses v) {S : Scopes} (hS : S.Meet v.criterion) {selectors : List Text}
    {args : List Value} {ms : List Mixin} {y : Yield} (hms : ∀ m ∈ ms, Item.MeetsAll v.criterion m.body)
    (h : Mixin.yieldAll calls S selectors args ms = .ok y) : y.Uses v := by
  induction ms generalizing y with
  | nil =>
    obtain rfl := Except.ok.inj h
    exact .none v
  | cons m ms ih =>
    rw [List.forall_mem_cons] at hms
    obtain ⟨T, hT, hbody⟩ := bind_eq_ok h
    obtain ⟨z, hz, hrest⟩ := bind_eq_ok hbody
    obtain ⟨w, hw, heq⟩ := bind_eq_ok hrest
    obtain rfl := Except.ok.inj heq
    exact (Item.yieldAll_uses hcalls hms.1 (hS.bodyScopes hms.1 hT) hz).append (ih hms.2 hw)

/-- Calls, by induction on the names that may be called. -/
theorem expand_uses (v : Vocabulary) (callable : List Text) : Expansion.Uses v (expand callable) := by
  induction hn : callable.length using Nat.strongRecOn generalizing callable with
  | ind n ih =>
    subst hn
    intro S selectors k y hS h
    rw [expand_eq] at h
    split at h
    · exact nomatch h
    · split at h
      · exact nomatch h
      · next hcallable =>
        obtain ⟨args, -, h⟩ := bind_eq_ok h
        dsimp only at h
        split at h
        · exact nomatch h
        · obtain ⟨z, hz, heq⟩ := bind_eq_ok h
          have hcalls : Expansion.Uses v (expand (without k.name callable)) :=
            ih _ (without_length (Decidable.not_not.mp hcallable)) _ rfl
          have hmixins : ∀ m ∈ (S.mixinsNamed k.name).filter (·.accepts args.length),
              Item.MeetsAll v.criterion m.body := fun m hm => hS.mixin (List.mem_filter.mp hm).1
          have huses := Mixin.yieldAll_uses hcalls hS hmixins hz
          obtain rfl := Except.ok.inj heq
          split
          · exact huses.important
          · exact huses

theorem Sheet.nodesOf_uses (hcalls : calls.Uses v) {S : Scopes} (hS : S.Meet v.criterion) {x : Statement}
    (hx : x.Meets v.criterion) {ns : List Css.Node} (h : Sheet.nodesOf calls S x = .ok ns) :
    ∀ n ∈ ns, n.UsesOutside v := by
  cases x with
  | directive d =>
    obtain rfl := Except.ok.inj h
    exact List.forall_mem_singleton.mpr hx
  | definition | mixin =>
    obtain rfl := Except.ok.inj h
    exact nofun
  | call k =>
    obtain ⟨y, hy, h⟩ := bind_eq_ok h
    split at h
    · obtain rfl := Except.ok.inj h
      exact fun n hn => ((hcalls S [] k y hS hy).nodes n hn).outside
    · exact nomatch h
  | rule | atRule =>
    obtain ⟨y, hy, rfl⟩ := map_eq_ok h
    exact fun n hn => ((Item.yield_uses hcalls (hx.toItem rfl) hS hy).nodes n hn).outside

/-- A style sheet has the names that the sheet has. -/
theorem Sheet.evaluate_uses {s : Sheet} (hs : ∀ x ∈ s, x.Meets v.criterion) {ns : List Css.Node}
    (h : s.evaluate = .ok ns) : ∀ n ∈ ns, n.UsesOutside v := by
  have hnone : Scopes.Meet v.criterion [] := List.forall_mem_nil _
  have hS : Scopes.Meet v.criterion [.ofItems s.items] := hnone.items (meetsAll_items hs)
  obtain ⟨parts, hparts, rfl⟩ := map_eq_ok h
  have hcalls := expand_uses v (Item.mixinNamesAll s.items)
  generalize expand (Item.mixinNamesAll s.items) = calls at hparts hcalls
  generalize [Scope.ofItems s.items] = S at hparts hS
  clear h
  induction s generalizing parts with
  | nil =>
    obtain rfl := Except.ok.inj hparts
    exact nofun
  | cons x s ih =>
    rw [List.forall_mem_cons] at hs
    obtain ⟨ns, others, hns, hothers, rfl⟩ := mapM_cons_eq_ok hparts
    rw [List.flatten_cons]
    exact List.forall_mem_append.mpr ⟨nodesOf_uses hcalls hS hs.1 hns, ih hs.2 others hothers⟩

end LessCss
