import LessCss.Proofs.Outcome
import LessCss.Proofs.Expr.Steps
import LessCss.Proofs.Token.Parens
/-!
What expressions are made of.

An expression that is read from a row is made of leaves (`ofTokens_formed`), and each leaf is spelled by tokens of the
row. So what holds of every leaf, and of what the formers make of expressions of which it holds, holds of whatever is
read.
-/
namespace LessCss.Expr

/-- What is made of the leaves of a row. -/
inductive Formed (ts : List Token) : Expr → Prop
  | leaf {t us e rest} (hus : t :: us <:+ ts) (h : Leaf t us e rest) : Formed ts e
  | ratio {value unit text t} (h : Formed ts (.number value unit text)) (ht : t ∈ ts) (hk : t.kind = .number) :
    Formed ts (.keyword (text ++ '/' :: t.text))
  | negate {e} (h : Formed ts e) : Formed ts (.negate e)
  | binary {lhs rhs} (op p) (hlhs : Formed ts lhs) (hrhs : Formed ts rhs) : Formed ts (.binary op lhs rhs p)
  | list {es} (separator) (h : ∀ e ∈ es, Formed ts e) : Formed ts (.list es separator)

variable {ts us rest : List Token} {e lhs : Expr} {es : List Expr}

theorem formed_collapse (separator : Separator) (h : ∀ e ∈ es, Formed ts e) : Formed ts (collapse separator es) := by
  rcases es with _ | ⟨e, _ | ⟨e', es⟩⟩
  · exact .list separator h
  · exact h e (.head _)
  · exact .list separator h

/-- What a reader takes from within a row is formed in the row. -/
def Forms (ts : List Token) (r : Reader) : Prop :=
  ∀ ⦃us e rest⦄, us <:+ ts → run r us = .ok (e, rest) → Formed ts e ∧ rest <:+ us

variable {r : Reader}

theorem formed_shorthand {inParens : Bool} {op : Operator} {slash : Token} (hlhs : Formed ts lhs) (hus : us <:+ ts)
    (h : shorthand? inParens lhs op slash us = some e) : Formed ts e := by
  unfold shorthand? at h
  split at h
  · cases h
  · split at h
    · split at h
      · next hnumber =>
        obtain rfl := Option.some.inj h
        exact .ratio hlhs (hus.subset (.head _)) hnumber.2.2.2.2
      · cases h
    · cases h

theorem Forms.factors (h : Forms ts r) {inParens : Bool} (hlhs : Formed ts lhs) (hus : us <:+ ts)
    (hread : factors r inParens lhs us = .ok (e, rest)) : Formed ts e ∧ rest <:+ us := by
  induction hn : us.length using Nat.strongRecOn generalizing lhs us with
  | ind n ih =>
    subst hn
    cases us with
    | nil =>
      rw [factors_nil] at hread
      obtain ⟨rfl, rfl⟩ := Prod.mk.inj (Except.ok.inj hread)
      exact ⟨hlhs, List.suffix_refl _⟩
    | cons t us =>
      have htail : us <:+ t :: us := List.suffix_cons t us
      rw [factors_cons] at hread
      split at hread
      · obtain ⟨rfl, rfl⟩ := Prod.mk.inj (Except.ok.inj hread)
        exact ⟨hlhs, List.suffix_refl _⟩
      · split at hread
        · next hshort =>
          have hlt : us.tail.length < (t :: us).length := Nat.lt_succ_of_le (List.tail_sublist us).length_le
          have hdrop : us.tail <:+ t :: us := (List.tail_suffix us).trans htail
          obtain ⟨he, hrest⟩ :=
            ih _ hlt (formed_shorthand hlhs (htail.trans hus) hshort) (hdrop.trans hus) hread rfl
          exact ⟨he, hrest.trans hdrop⟩
        · obtain ⟨⟨rhs, after⟩, hrun, hread⟩ := bind_eq_ok hread
          obtain ⟨hrhs, hafter⟩ := h (htail.trans hus) hrun
          have hafter := hafter.trans htail
          obtain ⟨he, hrest⟩ :=
            ih _ (Nat.lt_succ_of_lt (run_length hrun)) (.binary _ _ hlhs hrhs) (hafter.trans hus) hread rfl
          exact ⟨he, hrest.trans hafter⟩

theorem Forms.product (h : Forms ts r) (inParens : Bool) : Forms ts (product r inParens) := by
  intro us e rest hus hread
  rw [run_product] at hread
  obtain ⟨⟨lhs, after⟩, hrun, hread⟩ := bind_eq_ok hread
  obtain ⟨hlhs, hafter⟩ := h hus hrun
  obtain ⟨he, hrest⟩ := h.factors hlhs (hafter.trans hus) hread
  exact ⟨he, hrest.trans hafter⟩

theorem Forms.terms (h : Forms ts r) (hlhs : Formed ts lhs) (hus : us <:+ ts)
    (hread : terms r lhs us = .ok (e, rest)) : Formed ts e ∧ rest <:+ us := by
  induction hn : us.length using Nat.strongRecOn generalizing lhs us with
  | ind n ih =>
    subst hn
    cases us with
    | nil =>
      rw [terms_nil] at hread
      obtain ⟨rfl, rfl⟩ := Prod.mk.inj (Except.ok.inj hread)
      exact ⟨hlhs, List.suffix_refl _⟩
    | cons t us =>
      have htail : us <:+ t :: us := List.suffix_cons t us
      rw [terms_cons] at hread
      split at hread
      · obtain ⟨rfl, rfl⟩ := Prod.mk.inj (Except.ok.inj hread)
        exact ⟨hlhs, List.suffix_refl _⟩
      · split at hread
        · obtain ⟨rfl, rfl⟩ := Prod.mk.inj (Except.ok.inj hread)
          exact ⟨hlhs, List.suffix_refl _⟩
        · obtain ⟨⟨rhs, after⟩, hrun, hread⟩ := bind_eq_ok hread
          obtain ⟨hrhs, hafter⟩ := h (htail.trans hus) hrun
          have hafter := hafter.trans htail
          obtain ⟨he, hrest⟩ :=
            ih _ (Nat.lt_succ_of_lt (run_length hrun)) (.binary _ _ hlhs hrhs) (hafter.trans hus) hread rfl
          exact ⟨he, hrest.trans hafter⟩

theorem Forms.sum (h : Forms ts r) : Forms ts (sum r) := by
  intro us e rest hus hread
  rw [run_sum] at hread
  obtain ⟨⟨lhs, after⟩, hrun, hread⟩ := bind_eq_ok hread
  obtain ⟨hlhs, hafter⟩ := h hus hrun
  obtain ⟨he, hrest⟩ := h.terms hlhs (hafter.trans hus) hread
  exact ⟨he, hrest.trans hafter⟩

theorem Forms.items (h : Forms ts r) (hus : us <:+ ts) (hread : items r us = .ok (es, rest)) :
    (∀ e ∈ es, Formed ts e) ∧ rest <:+ us := by
  induction hn : us.length using Nat.strongRecOn generalizing us es with
  | ind n ih =>
    subst hn
    cases us with
    | nil =>
      rw [items_nil] at hread
      obtain ⟨rfl, rfl⟩ := Prod.mk.inj (Except.ok.inj hread)
      exact ⟨nofun, List.suffix_refl _⟩
    | cons t us =>
      rw [items_cons] at hread
      split at hread
      · obtain ⟨⟨e, after⟩, hrun, hread⟩ := bind_eq_ok hread
        obtain ⟨⟨es, last⟩, hitems, heq⟩ := map_eq_ok hread
        obtain ⟨rfl, rfl⟩ := Prod.mk.inj heq
        obtain ⟨he, hafter⟩ := h hus hrun
        obtain ⟨hes, hrest⟩ := ih _ (run_length hrun) (hafter.trans hus) hitems rfl
        exact ⟨List.forall_mem_cons.mpr ⟨he, hes⟩, hrest.trans hafter⟩
      · obtain ⟨rfl, rfl⟩ := Prod.mk.inj (Except.ok.inj hread)
        exact ⟨nofun, List.suffix_refl _⟩

theorem Forms.spaceList (h : Forms ts r) : Forms ts (spaceList r) := by
  intro us e rest hus hread
  rw [run_spaceList] at hread
  obtain ⟨⟨e, after⟩, hrun, hread⟩ := bind_eq_ok hread
  obtain ⟨⟨es, last⟩, hitems, heq⟩ := map_eq_ok hread
  obtain ⟨rfl, rfl⟩ := Prod.mk.inj heq
  obtain ⟨he, hafter⟩ := h hus hrun
  obtain ⟨hes, hrest⟩ := h.items (hafter.trans hus) hitems
  exact ⟨formed_collapse .space (List.forall_mem_cons.mpr ⟨he, hes⟩), hrest.trans hafter⟩

theorem Forms.groups (h : Forms ts r) (hus : us <:+ ts) (hread : groups r us = .ok (es, rest)) :
    (∀ e ∈ es, Formed ts e) ∧ rest <:+ us := by
  induction hn : us.length using Nat.strongRecOn generalizing us es with
  | ind n ih =>
    subst hn
    cases us with
    | nil =>
      rw [groups_nil] at hread
      obtain ⟨rfl, rfl⟩ := Prod.mk.inj (Except.ok.inj hread)
      exact ⟨nofun, List.suffix_refl _⟩
    | cons t us =>
      have htail : us <:+ t :: us := List.suffix_cons t us
      rw [groups_cons] at hread
      split at hread
      · obtain ⟨⟨e, after⟩, hrun, hread⟩ := bind_eq_ok hread
        obtain ⟨⟨es, last⟩, hgroups, heq⟩ := map_eq_ok hread
        obtain ⟨rfl, rfl⟩ := Prod.mk.inj heq
        obtain ⟨he, hafter⟩ := h (htail.trans hus) hrun
        have hafter := hafter.trans htail
        obtain ⟨hes, hrest⟩ := ih _ (Nat.lt_succ_of_lt (run_length hrun)) (hafter.trans hus) hgroups rfl
        exact ⟨List.forall_mem_cons.mpr ⟨he, hes⟩, hrest.trans hafter⟩
      · obtain ⟨rfl, rfl⟩ := Prod.mk.inj (Except.ok.inj hread)
        exact ⟨nofun, List.suffix_refl _⟩

theorem Forms.commaList (h : Forms ts r) : Forms ts (commaList r) := by
  intro us e rest hus hread
  rw [run_commaList] at hread
  obtain ⟨⟨e, after⟩, hrun, hread⟩ := bind_eq_ok hread
  obtain ⟨⟨es, last⟩, hgroups, heq⟩ := map_eq_ok hread
  obtain ⟨rfl, rfl⟩ := Prod.mk.inj heq
  obtain ⟨he, hafter⟩ := h hus hrun
  obtain ⟨hes, hrest⟩ := h.groups (hafter.trans hus) hgroups
  exact ⟨formed_collapse .comma (List.forall_mem_cons.mpr ⟨he, hes⟩), hrest.trans hafter⟩

theorem Forms.value (h : Forms ts r) (inParens : Bool) : Forms ts (value r inParens) :=
  (h.product inParens).sum.spaceList.commaList

theorem Leaf.rest_suffix {t : Token} (h : Leaf t us e rest) : rest <:+ us := by
  cases h with
  | number | keyword | reference => exact List.suffix_refl _
  | @function us args after hk hclose =>
    obtain ⟨close, -, rfl, -⟩ := Tokens.closeParen?_eq_some hclose
    exact ⟨args ++ [close], by simp⟩
  | escaped => exact List.suffix_cons _ _

/-- By induction on the budget: whatever is nested is read with a smaller one. -/
theorem forms_operand (last : Position) (budget : Nat) (inParens : Bool) : Forms ts (operand last budget inParens) := by
  induction budget using Nat.strongRecOn generalizing inParens with
  | ind budget ih =>
    intro us e rest hus hread
    cases operandRead_of_run hread with
    | @negative budget t us e rest _ h =>
      have htail : us <:+ t :: us := List.suffix_cons t us
      obtain ⟨he, hrest⟩ := ih budget (Nat.lt_succ_self budget) inParens (htail.trans hus) h
      exact ⟨.negate he, hrest.trans htail⟩
    | @parens budget t us e close rest _ h _ =>
      have htail : us <:+ t :: us := List.suffix_cons t us
      obtain ⟨he, hafter⟩ := (ih budget (Nat.lt_succ_self budget) true).value true (htail.trans hus) h
      exact ⟨he, (List.suffix_cons close rest).trans (hafter.trans htail)⟩
    | leaf _ _ h => exact ⟨.leaf hus h, h.rest_suffix.trans (List.suffix_cons _ _)⟩

/-- An expression that is read from a row is formed in it. -/
theorem ofTokens_formed (h : ofTokens ts = .ok e) : Formed ts e := by
  rw [ofTokens_eq] at h
  obtain ⟨⟨e, after⟩, hrun, h⟩ := bind_eq_ok h
  split at h
  · obtain rfl := Except.ok.inj h
    exact ((forms_operand _ maxNesting false).value false (List.suffix_refl ts) hrun).1
  · cases h

end LessCss.Expr
