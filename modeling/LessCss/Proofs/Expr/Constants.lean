import LessCss.Expr.Value
import LessCss.Proofs.Outcome
import LessCss.Proofs.Expr.Steps
import LessCss.Proofs.Token.Parens
/-!
Constants in the place of variables.

A constant is a single token that is an operand whatever stands around it. Where it is put in the place of a variable,
the expression of the row is the old one with the constant in it, unless there is a slash in the row
(`Expr.ofTokens_inline`): between two measures a slash is read otherwise than between a variable and a measure. If the
variable has the value of the constant, both evaluate to the same.
-/
namespace LessCss

/-- The token is an operand by itself. -/
structure Token.Constant (l : Token) : Prop where
  kind : l.kind = .number ∨ l.kind = .ident ∨ l.kind = .hash ∨ l.kind = .string
  measure : l.kind = .number → (Measure.parse? l.text).isSome

/-- Puts a constant in the place of a variable. -/
def Token.inline (x : Text) (l t : Token) : Token :=
  if t.kind = .atKeyword ∧ t.name = x then { t with kind := l.kind, text := l.text } else t

abbrev Token.inlineAll (x : Text) (l : Token) : List Token → List Token := List.map (inline x l)

/-- What a constant says. -/
def Expr.ofConstant (l : Token) : Expr :=
  match l.kind, Measure.parse? l.text with
  | .number, some (v, unit) => .number v unit l.text
  | _, _ => .keyword l.text

/-- What a constant evaluates to. -/
def Value.ofConstant (l : Token) : Value :=
  match l.kind, Measure.parse? l.text with
  | .number, some (v, unit) => .dimension ⟨v, unit, some l.text⟩
  | _, _ => .keyword l.text

theorem Value.render_ofConstant (l : Token) : (ofConstant l).render = l.text := by
  unfold ofConstant
  split <;> rfl

namespace Expr

theorem evaluate_ofConstant (lookup : Lookup) (l : Token) : (ofConstant l).evaluate lookup = .ok (.ofConstant l) := by
  unfold ofConstant Value.ofConstant
  split <;> rfl

variable (x : Text) (l : Token)

mutual

/-- Puts a constant in the place of a variable. -/
def inline : Expr → Expr
  | .number value unit text => .number value unit text
  | .keyword text => .keyword text
  | .reference name p => if name = x then ofConstant l else .reference name p
  | .function name args => .function name (args.map (Token.inline x l))
  | .negate operand => .negate (inline operand)
  | .binary op lhs rhs p => .binary op (inline lhs) (inline rhs) p
  | .list items separator => .list (inlineAll items) separator

def inlineAll : List Expr → List Expr
  | [] => []
  | e :: es => inline e :: inlineAll es

end

theorem inline_collapse (separator : Separator) (es : List Expr) :
    (collapse separator es).inline x l = collapse separator (inlineAll x l es) := by
  rcases es with _ | ⟨e, _ | ⟨e', es⟩⟩ <;> simp [collapse, inline, inlineAll]

end Expr

variable {x : Text} {l : Token}

namespace Token

theorem inline_spaced (t : Token) : (inline x l t).spaced = t.spaced := by
  unfold inline
  split <;> rfl

theorem inline_position (t : Token) : (inline x l t).position = t.position := by
  unfold inline
  split <;> rfl

/-- A token that is changed was a variable, and is then of the kind of the constant. -/
theorem inline_cases (x : Text) (l t : Token) :
    inline x l t = t ∨ (t.kind = .atKeyword ∧ (inline x l t).kind = l.kind) := by
  unfold inline
  split
  · next h => exact .inr ⟨h.1, rfl⟩
  · exact .inl rfl

theorem Constant.kind_ne_atKeyword (hl : l.Constant) : l.kind ≠ .atKeyword := by
  rcases hl.kind with h | h | h | h <;> rw [h] <;> decide

theorem inline_constant (hl : l.Constant) : inline x l l = l := if_neg fun h => hl.kind_ne_atKeyword h.1

/-- The kinds of variables and constants. -/
def Kind.isAtom : Kind → Bool
  | .atKeyword | .number | .ident | .hash | .string => true
  | _ => false

/-- A token of another kind stays as it is. -/
theorem inline_kind_iff (hl : l.Constant) (t : Token) {k : Kind} (hk : k.isAtom = false) :
    (inline x l t).kind = k ↔ t.kind = k := by
  rcases inline_cases x l t with h | ⟨hat, hc⟩
  · rw [h]
  · constructor
    · rintro rfl
      rw [hc] at hk
      rcases hl.kind with h | h | h | h <;> rw [h] at hk <;> cases hk
    · rintro rfl
      rw [hat] at hk
      cases hk

theorem inline_isOperator (hl : l.Constant) (t : Token) (c : Char) :
    (inline x l t).isOperator c = t.isOperator c := by
  rcases inline_cases x l t with h | ⟨hk, hc⟩
  · rw [h]
  · rcases hl.kind with h | h | h | h <;> simp [isOperator, hk, hc, h]

end Token

namespace Expr

theorem operator?_inline (hl : l.Constant) (t : Token) : operator? (Token.inline x l t) = operator? t := by
  rcases Token.inline_cases x l t with h | ⟨hk, hc⟩
  · rw [h]
  · rcases hl.kind with h | h | h | h <;> simp [operator?, hk, hc, h]

theorem startsOperand_inline (hl : l.Constant) (t : Token) :
    startsOperand (Token.inline x l t) = startsOperand t := by
  rcases Token.inline_cases x l t with h | ⟨hk, hc⟩
  · rw [h]
  · rcases hl.kind with h | h | h | h <;> simp [startsOperand, hk, hc, h]

theorem endsSum_inline (op : Operator) (t : Token) (ts : List Token) :
    endsSum op (Token.inline x l t) (ts.map (Token.inline x l)) = endsSum op t ts := by
  unfold endsSum
  rw [Token.inline_spaced, List.head?_map, Option.any_map]
  simp only [Token.inline_spaced]

/-- A constant is a leaf. -/
theorem runLeaf_constant (hl : l.Constant) (ts : List Token) : runLeaf l ts = .ok (ofConstant l, ts) := by
  rw [runLeaf_eq]
  unfold ofConstant
  rcases hl.kind with hk | hk | hk | hk
  · obtain ⟨⟨v, unit⟩, hm⟩ := Option.isSome_iff_exists.mp (hl.measure hk)
    rw [hk, hm]
  all_goals rw [hk]

/-- A constant is no parenthesis. -/
theorem closeParen?_inline (hl : l.Constant) (depth : Nat) (ts : List Token) :
    Tokens.closeParen? (fun _ => false) depth (ts.map (Token.inline x l)) =
      (Tokens.closeParen? (fun _ => false) depth ts).map
        (Prod.map (List.map (Token.inline x l)) (List.map (Token.inline x l))) := by
  induction ts generalizing depth with
  | nil => rfl
  | cons t ts ih =>
    have hcons : (fun p : List Token × List Token => (Token.inline x l t :: p.1, p.2)) ∘
        Prod.map (List.map (Token.inline x l)) (List.map (Token.inline x l)) =
          Prod.map (List.map (Token.inline x l)) (List.map (Token.inline x l)) ∘ fun p => (t :: p.1, p.2) := rfl
    rw [List.map_cons]
    unfold Tokens.closeParen?
    simp only [ih, Bool.false_eq_true, if_false]
    rcases Token.inline_cases x l t with h | ⟨hat, hc⟩
    · rw [h] at hcons ⊢
      cases t.kind <;> cases depth <;> simp only [Option.map_map, hcons]
      rfl
    · rcases hl.kind with h | h | h | h <;> simp only [hat, hc, h, Option.map_map, hcons]

/-- No token of the row is a slash. -/
abbrev NoSlash (ts : List Token) : Prop := ∀ t ∈ ts, t.isOperator '/' = false

/-- Among tokens without a slash a reader takes constants in the place of variables, and leaves no slash. -/
def Carries (x : Text) (l : Token) (r : Reader) : Prop :=
  ∀ {ts : List Token} {e : Expr} {rest : List Token}, NoSlash ts → run r ts = .ok (e, rest) →
    NoSlash rest ∧ run r (ts.map (Token.inline x l)) = .ok (e.inline x l, rest.map (Token.inline x l))

variable {r : Reader}

theorem shorthand?_multiply (inParens : Bool) (lhs : Expr) (t : Token) (ts : List Token) :
    shorthand? inParens lhs .multiply t ts = none := by
  unfold shorthand?
  split
  · rfl
  · split
    · exact if_neg fun h => absurd h.1 (by decide)
    · rfl

/-- Without a slash the only operator of a product is that of multiplication. -/
theorem op_of_noSlash {t : Token} {op : Operator} (ht : t.isOperator '/' = false) (h : productOperator? t = some op) :
    op = .multiply := by
  obtain ⟨hop, hor⟩ := Option.filter_eq_some_iff.mp h
  rcases of_decide_eq_true hor with hm | rfl
  · exact hm
  · unfold operator? at hop
    simp only [Token.isOperator, decide_eq_false_iff_not, not_and] at ht
    split at hop
    · next hk =>
      have htext := ht hk
      split at hop
      · cases hop
      · split at hop
        · cases hop
        · split at hop
          · cases hop
          · split at hop
            · next hslash =>
              rw [hslash] at htext
              exact absurd rfl htext
            · cases hop
    · cases hop

theorem factors_inline (hl : l.Constant) (h : Carries x l r) (inParens : Bool) {lhs e : Expr} {ts rest : List Token}
    (hts : NoSlash ts) (hrun : factors r inParens lhs ts = .ok (e, rest)) : NoSlash rest ∧
      factors r inParens (lhs.inline x l) (ts.map (Token.inline x l)) =
        .ok (e.inline x l, rest.map (Token.inline x l)) := by
  induction hn : ts.length using Nat.strongRecOn generalizing lhs ts with
  | ind n ih =>
    subst hn
    cases ts with
    | nil =>
      rw [factors_nil] at hrun
      obtain ⟨rfl, rfl⟩ := Prod.mk.inj (Except.ok.inj hrun)
      exact ⟨hts, factors_nil ..⟩
    | cons t ts =>
      have hproduct : productOperator? (Token.inline x l t) = productOperator? t := by
        rw [productOperator?, operator?_inline hl, productOperator?]
      rw [List.map_cons, factors_cons, hproduct]
      rw [factors_cons] at hrun
      cases hop : productOperator? t with
      | none =>
        rw [hop] at hrun
        obtain ⟨rfl, rfl⟩ := Prod.mk.inj (Except.ok.inj hrun)
        exact ⟨hts, rfl⟩
      | some op =>
        obtain rfl := op_of_noSlash (hts t (.head _)) hop
        rw [hop] at hrun
        dsimp only at hrun ⊢
        rw [shorthand?_multiply] at hrun ⊢
        obtain ⟨⟨rhs, after⟩, hrhs, hmore⟩ := bind_eq_ok hrun
        obtain ⟨hafter, hrhs'⟩ := h (fun u hu => hts u (.tail _ hu)) hrhs
        obtain ⟨hrest, hmore'⟩ := ih _ (Nat.lt_succ_of_lt (run_length hrhs)) hafter hmore rfl
        refine ⟨hrest, ?_⟩
        rw [hrhs', ok_bind, Token.inline_position]
        exact hmore'

theorem Carries.product (hl : l.Constant) (h : Carries x l r) (inParens : Bool) : Carries x l (product r inParens) := by
  intro ts e rest hts hrun
  rw [run_product] at hrun ⊢
  obtain ⟨⟨lhs, after⟩, hlhs, hmore⟩ := bind_eq_ok hrun
  obtain ⟨hafter, hlhs'⟩ := h hts hlhs
  rw [hlhs', ok_bind]
  exact factors_inline hl h inParens hafter hmore

theorem terms_inline (hl : l.Constant) (h : Carries x l r) {lhs e : Expr} {ts rest : List Token}
    (hts : NoSlash ts) (hrun : terms r lhs ts = .ok (e, rest)) : NoSlash rest ∧
      terms r (lhs.inline x l) (ts.map (Token.inline x l)) = .ok (e.inline x l, rest.map (Token.inline x l)) := by
  induction hn : ts.length using Nat.strongRecOn generalizing lhs ts with
  | ind n ih =>
    subst hn
    cases ts with
    | nil =>
      rw [terms_nil] at hrun
      obtain ⟨rfl, rfl⟩ := Prod.mk.inj (Except.ok.inj hrun)
      exact ⟨hts, terms_nil ..⟩
    | cons t ts =>
      have hsum : sumOperator? (Token.inline x l t) = sumOperator? t := by
        rw [sumOperator?, operator?_inline hl, sumOperator?]
      rw [List.map_cons, terms_cons, hsum]
      rw [terms_cons] at hrun
      cases hop : sumOperator? t with
      | none =>
        rw [hop] at hrun
        obtain ⟨rfl, rfl⟩ := Prod.mk.inj (Except.ok.inj hrun)
        exact ⟨hts, rfl⟩
      | some op =>
        rw [hop] at hrun
        dsimp only at hrun ⊢
        rw [endsSum_inline]
        split at hrun
        · next hends =>
          obtain ⟨rfl, rfl⟩ := Prod.mk.inj (Except.ok.inj hrun)
          exact ⟨hts, if_pos hends⟩
        · next hends =>
          obtain ⟨⟨rhs, after⟩, hrhs, hmore⟩ := bind_eq_ok hrun
          obtain ⟨hafter, hrhs'⟩ := h (fun u hu => hts u (.tail _ hu)) hrhs
          obtain ⟨hrest, hmore'⟩ := ih _ (Nat.lt_succ_of_lt (run_length hrhs)) hafter hmore rfl
          refine ⟨hrest, ?_⟩
          rw [if_neg hends, hrhs', ok_bind, Token.inline_position]
          exact hmore'

theorem Carries.sum (hl : l.Constant) (h : Carries x l r) : Carries x l (sum r) := by
  intro ts e rest hts hrun
  rw [run_sum] at hrun ⊢
  obtain ⟨⟨lhs, after⟩, hlhs, hmore⟩ := bind_eq_ok hrun
  obtain ⟨hafter, hlhs'⟩ := h hts hlhs
  rw [hlhs', ok_bind]
  exact terms_inline hl h hafter hmore

theorem items_inline (hl : l.Constant) (h : Carries x l r) {es : List Expr} {ts rest : List Token}
    (hts : NoSlash ts) (hrun : items r ts = .ok (es, rest)) : NoSlash rest ∧
      items r (ts.map (Token.inline x l)) = .ok (inlineAll x l es, rest.map (Token.inline x l)) := by
  induction hn : ts.length using Nat.strongRecOn generalizing es ts with
  | ind n ih =>
    subst hn
    cases ts with
    | nil =>
      rw [items_nil] at hrun
      obtain ⟨rfl, rfl⟩ := Prod.mk.inj (Except.ok.inj hrun)
      exact ⟨hts, items_nil⟩
    | cons t ts =>
      rw [List.map_cons, items_cons, startsOperand_inline hl]
      rw [items_cons] at hrun
      split at hrun
      · next hstart =>
        obtain ⟨⟨e, after⟩, he, hmore⟩ := bind_eq_ok hrun
        obtain ⟨⟨others, last⟩, hothers, heq⟩ := map_eq_ok hmore
        obtain ⟨rfl, rfl⟩ := Prod.mk.inj heq
        obtain ⟨hafter, he'⟩ := h hts he
        obtain ⟨hrest, hothers'⟩ := ih _ (run_length he) hafter hothers rfl
        refine ⟨hrest, ?_⟩
        rw [if_pos hstart, ← List.map_cons, he', ok_bind, hothers']
        rfl
      · next hstart =>
        obtain ⟨rfl, rfl⟩ := Prod.mk.inj (Except.ok.inj hrun)
        exact ⟨hts, if_neg hstart⟩

theorem Carries.spaceList (hl : l.Constant) (h : Carries x l r) : Carries x l (spaceList r) := by
  intro ts e rest hts hrun
  rw [run_spaceList] at hrun ⊢
  obtain ⟨⟨first, after⟩, hfirst, hmore⟩ := bind_eq_ok hrun
  obtain ⟨⟨others, last⟩, hothers, heq⟩ := map_eq_ok hmore
  obtain ⟨rfl, rfl⟩ := Prod.mk.inj heq
  obtain ⟨hafter, hfirst'⟩ := h hts hfirst
  obtain ⟨hrest, hothers'⟩ := items_inline hl h hafter hothers
  refine ⟨hrest, ?_⟩
  rw [hfirst', ok_bind, hothers', inline_collapse]
  rfl

theorem groups_inline (hl : l.Constant) (h : Carries x l r) {es : List Expr} {ts rest : List Token}
    (hts : NoSlash ts) (hrun : groups r ts = .ok (es, rest)) : NoSlash rest ∧
      groups r (ts.map (Token.inline x l)) = .ok (inlineAll x l es, rest.map (Token.inline x l)) := by
  induction hn : ts.length using Nat.strongRecOn generalizing es ts with
  | ind n ih =>
    subst hn
    cases ts with
    | nil =>
      rw [groups_nil] at hrun
      obtain ⟨rfl, rfl⟩ := Prod.mk.inj (Except.ok.inj hrun)
      exact ⟨hts, groups_nil⟩
    | cons t ts =>
      have hcomma : (Token.inline x l t).kind = .comma ↔ t.kind = .comma := Token.inline_kind_iff hl t rfl
      rw [List.map_cons, groups_cons]
      rw [groups_cons] at hrun
      split at hrun
      · next hk =>
        obtain ⟨⟨e, after⟩, he, hmore⟩ := bind_eq_ok hrun
        obtain ⟨⟨others, last⟩, hothers, heq⟩ := map_eq_ok hmore
        obtain ⟨rfl, rfl⟩ := Prod.mk.inj heq
        obtain ⟨hafter, he'⟩ := h (fun u hu => hts u (.tail _ hu)) he
        obtain ⟨hrest, hothers'⟩ := ih _ (Nat.lt_succ_of_lt (run_length he)) hafter hothers rfl
        refine ⟨hrest, ?_⟩
        rw [if_pos (hcomma.mpr hk), he', ok_bind, hothers']
        rfl
      · next hk =>
        obtain ⟨rfl, rfl⟩ := Prod.mk.inj (Except.ok.inj hrun)
        exact ⟨hts, if_neg (mt hcomma.mp hk)⟩

theorem Carries.commaList (hl : l.Constant) (h : Carries x l r) : Carries x l (commaList r) := by
  intro ts e rest hts hrun
  rw [run_commaList] at hrun ⊢
  obtain ⟨⟨first, after⟩, hfirst, hmore⟩ := bind_eq_ok hrun
  obtain ⟨⟨others, last⟩, hothers, heq⟩ := map_eq_ok hmore
  obtain ⟨rfl, rfl⟩ := Prod.mk.inj heq
  obtain ⟨hafter, hfirst'⟩ := h hts hfirst
  obtain ⟨hrest, hothers'⟩ := groups_inline hl h hafter hothers
  refine ⟨hrest, ?_⟩
  rw [hfirst', ok_bind, hothers', inline_collapse]
  rfl

theorem Carries.value (hl : l.Constant) (h : Carries x l r) (inParens : Bool) : Carries x l (value r inParens) :=
  Carries.commaList hl (Carries.spaceList hl (Carries.sum hl (Carries.product hl h inParens)))

theorem inline_of_kind {t : Token} (h : t.kind ≠ .atKeyword) : Token.inline x l t = t := if_neg fun hx => h hx.1

/-- What a leaf leaves follows its token. -/
theorem Leaf.subset {t : Token} {ts rest : List Token} {e : Expr} (h : Leaf t ts e rest) : rest ⊆ ts := by
  cases h with
  | number | keyword | reference => exact fun _ hu => hu
  | function hk hclose =>
    obtain ⟨close, -, rfl, -⟩ := Tokens.closeParen?_eq_some hclose
    exact fun _ hu => List.mem_append_right _ (.tail _ hu)
  | escaped => exact fun _ hu => .tail _ hu

theorem Leaf.inline (hl : l.Constant) {t : Token} {ts rest : List Token} {e : Expr} (h : Leaf t ts e rest) :
    Leaf (Token.inline x l t) (ts.map (Token.inline x l)) (e.inline x l) (rest.map (Token.inline x l)) := by
  cases h with
  | number hk hm =>
    rw [inline_of_kind (by simp [hk])]
    exact .number hk hm
  | keyword hk =>
    rw [inline_of_kind (by rcases hk with hk | hk | hk | hk <;> simp [hk])]
    exact .keyword hk
  | reference hk =>
    unfold Expr.inline
    split
    · next hname =>
      have hconst : (Token.mk l.kind l.text t.position t.spaced).Constant := ⟨hl.kind, hl.measure⟩
      rw [Token.inline, if_pos ⟨hk, hname⟩]
      exact runLeaf_eq_ok.mp (runLeaf_constant hconst _)
    · next hname =>
      rw [Token.inline, if_neg (mt And.right hname)]
      exact .reference hk
  | function hk hclose =>
    rw [inline_of_kind (by simp [hk])]
    refine .function hk ?_
    rw [closeParen?_inline hl, hclose]
    rfl
  | escaped ht hs =>
    have hk : t.kind = .delim := (of_decide_eq_true ht).1
    rw [inline_of_kind (by simp [hk]), List.map_cons, inline_of_kind (by simp [hs])]
    exact .escaped ht hs

/-- By induction on the budget: whatever is nested is read with a smaller one. -/
theorem operand_carries (hl : l.Constant) (last : Position) (budget : Nat) (inParens : Bool) :
    Carries x l (operand last budget inParens) := by
  induction budget using Nat.strongRecOn generalizing inParens with
  | ind budget ih =>
    intro ts e rest hts hrun
    cases operandRead_of_run hrun with
    | @negative budget t ts e rest hminus h =>
      obtain ⟨hrest, h'⟩ := ih budget (Nat.lt_succ_self budget) inParens (fun u hu => hts u (.tail _ hu)) h
      exact ⟨hrest, run_operand_eq_ok.mpr (.negative ((Token.inline_isOperator hl t '-').trans hminus) h')⟩
    | @parens budget t ts e close rest hopen h hclose =>
      have hcarries : Carries x l (value (operand last budget true) true) :=
        Carries.value hl (ih budget (Nat.lt_succ_self budget) true) true
      obtain ⟨hafter, h'⟩ := hcarries (fun u hu => hts u (.tail _ hu)) h
      have hopen' : (Token.inline x l t).kind = .lparen := (Token.inline_kind_iff hl t rfl).mpr hopen
      have hclose' : (Token.inline x l close).kind = .rparen := (Token.inline_kind_iff hl close rfl).mpr hclose
      exact ⟨fun u hu => hafter u (.tail _ hu), run_operand_eq_ok.mpr (.parens hopen' h' hclose')⟩
    | @leaf _ t ts e rest hminus hopen h =>
      have hminus' : (Token.inline x l t).isOperator '-' = false := (Token.inline_isOperator hl t '-').trans hminus
      have hopen' : (Token.inline x l t).kind ≠ .lparen := mt (Token.inline_kind_iff hl t rfl).mp hopen
      exact ⟨fun u hu => hts u (.tail _ (h.subset hu)), run_operand_of_leaf hminus' hopen' (h.inline hl)⟩

/-- A constant is a whole value. -/
theorem ofTokens_constant (hl : l.Constant) : ofTokens [l] = .ok (ofConstant l) := by
  have hminus : l.isOperator '-' = false := by
    rcases hl.kind with h | h | h | h <;> simp [Token.isOperator, h]
  have hparen : l.kind ≠ .lparen := by
    rcases hl.kind with h | h | h | h <;> rw [h] <;> decide
  have hoperand : ∀ last budget inParens,
      run (operand last budget inParens) [l] = .ok (ofConstant l, []) := by
    intro last budget inParens
    rw [run_operand_leaf last hminus hparen, runLeaf_constant hl]
  rw [ofTokens_eq, value, run_commaList, run_spaceList, run_sum, run_product, hoperand, ok_bind, factors_nil, ok_bind,
    terms_nil, ok_bind, items_nil, Except.map, ok_bind, groups_nil]
  rfl

/-- The expression of a row without a slash that has constants in the place of variables. -/
theorem ofTokens_inline (hl : l.Constant) {ts : List Token} {e : Expr} (hts : NoSlash ts) (h : ofTokens ts = .ok e) :
    ofTokens (ts.map (Token.inline x l)) = .ok (e.inline x l) := by
  have hlast : (ts.map (Token.inline x l)).getLast?.map Token.position = ts.getLast?.map Token.position := by
    rw [List.getLast?_map, Option.map_map]
    simp only [Function.comp_def, Token.inline_position]
  rw [ofTokens_eq] at h ⊢
  obtain ⟨⟨v, rest⟩, hv, hrest⟩ := bind_eq_ok h
  obtain ⟨-, hv'⟩ := Carries.value hl (operand_carries hl _ maxNesting false) false hts hv
  rw [hlast, hv', ok_bind]
  cases rest with
  | nil => exact congrArg (fun w : Expr => Except.ok (w.inline x l)) (Except.ok.inj hrest)
  | cons t rest => cases hrest

variable {lookup lookup' : Lookup}

/-- A variable with the value of the constant leaves the same text in the arguments of a function. -/
theorem argumentPiece_inline (hl : l.Constant) (hx : ∀ p, lookup x p = .ok (.ofConstant l)) (t : Token) :
    argumentPiece lookup (Token.inline x l t) = argumentPiece lookup t := by
  by_cases ht : t.kind = .atKeyword ∧ t.name = x
  · unfold argumentPiece
    rw [Token.inline, if_pos ht, if_pos ht.1, if_neg hl.kind_ne_atKeyword, ht.2, hx]
    exact congrArg (fun text => Except.ok (t.spaced, text)) (Value.render_ofConstant l).symm
  · rw [Token.inline, if_neg ht]

mutual

/-- Nothing changes if the variable has the value of the constant. -/
theorem evaluate_inlined (hl : l.Constant) (hx : ∀ p, lookup x p = .ok (.ofConstant l)) (e : Expr) :
    (e.inline x l).evaluate lookup = e.evaluate lookup := by
  cases e with
  | number | keyword => rfl
  | reference name p =>
    unfold inline
    split
    · next hname => rw [evaluate_ofConstant, evaluate, hname, hx]
    · rfl
  | function name args =>
    have hargs : (args.map (Token.inline x l)).mapM (argumentPiece lookup) = args.mapM (argumentPiece lookup) := by
      rw [List.mapM_map]
      congr 1
      funext t
      exact argumentPiece_inline hl hx t
    rw [inline, evaluate, evaluate, hargs]
  | negate operand => rw [inline, evaluate, evaluate, evaluate_inlined hl hx operand]
  | binary op lhs rhs p => rw [inline, evaluate, evaluate, evaluate_inlined hl hx lhs, evaluate_inlined hl hx rhs]
  | list es separator => rw [inline, evaluate, evaluate, evaluateAll_inlined hl hx es]

theorem evaluateAll_inlined (hl : l.Constant) (hx : ∀ p, lookup x p = .ok (.ofConstant l)) (es : List Expr) :
    evaluateAll lookup (inlineAll x l es) = evaluateAll lookup es := by
  cases es with
  | nil => rfl
  | cons e es => rw [inlineAll, evaluateAll, evaluateAll, evaluate_inlined hl hx e, evaluateAll_inlined hl hx es]

end

/-- The second look-up finds what the first one finds. -/
def Extends (lookup lookup' : Lookup) : Prop := ∀ name p, Follows (lookup name p) (lookup' name p)

theorem argumentPiece_extends (h : Extends lookup lookup') (t : Token) :
    Follows (argumentPiece lookup t) (argumentPiece lookup' t) := by
  unfold argumentPiece
  split
  · exact (h t.name t.position).map _
  · exact .refl _

mutual

theorem evaluate_extends (h : Extends lookup lookup') (e : Expr) : Follows (e.evaluate lookup) (e.evaluate lookup') := by
  cases e with
  | number | keyword => exact .refl _
  | reference name p => exact h name p
  | function name args =>
    rw [evaluate, evaluate]
    exact (Follows.mapM fun t _ => argumentPiece_extends h t).bind fun _ _ => .refl _
  | negate operand =>
    rw [evaluate, evaluate]
    exact (evaluate_extends h operand).bind fun _ _ => .refl _
  | binary op lhs rhs p =>
    rw [evaluate, evaluate]
    exact (evaluate_extends h lhs).bind fun _ _ => (evaluate_extends h rhs).bind fun _ _ => .refl _
  | list es separator =>
    rw [evaluate, evaluate]
    exact (evaluateAll_extends h es).bind fun _ _ => .refl _

theorem evaluateAll_extends (h : Extends lookup lookup') (es : List Expr) :
    Follows (evaluateAll lookup es) (evaluateAll lookup' es) := by
  cases es with
  | nil => exact .refl _
  | cons e es =>
    rw [evaluateAll, evaluateAll]
    exact (evaluate_extends h e).bind fun _ _ => (evaluateAll_extends h es).bind fun _ _ => .refl _

end

/-- A constant may be put in the place of a variable in the row: if the variable is in it, no slash is. -/
def Inlinable (x : Text) (ts : List Token) : Prop := (∃ t ∈ ts, t.kind = .atKeyword ∧ t.name = x) → NoSlash ts

theorem inlinable_constant (hl : l.Constant) : Inlinable x [l] := by
  rintro ⟨t, ht, hk, -⟩
  obtain rfl := List.mem_singleton.mp ht
  exact absurd hk hl.kind_ne_atKeyword

/-- A row has the same value with a constant in the place of a variable that has the value of the constant. -/
theorem evaluate_inlinable (hl : l.Constant) {ts : List Token} (hts : Inlinable x ts) (h : Extends lookup lookup')
    (hx : ∀ p, lookup' x p = .ok (.ofConstant l)) : Follows (ofTokens ts >>= fun e => e.evaluate lookup)
      (ofTokens (ts.map (Token.inline x l)) >>= fun e => e.evaluate lookup') := by
  by_cases hmem : ∃ t ∈ ts, t.kind = .atKeyword ∧ t.name = x
  · intro v hv
    obtain ⟨e, he, hev⟩ := bind_eq_ok hv
    rw [ofTokens_inline hl (hts hmem) he, ok_bind, evaluate_inlined hl hx]
    exact evaluate_extends h e v hev
  · have hsame : ts.map (Token.inline x l) = ts := by
      refine (List.map_congr_left ?_).trans (List.map_id ts)
      exact fun t ht => if_neg fun hx => hmem ⟨t, ht, hx⟩
    rw [hsame]
    exact (Follows.refl _).bind fun e _ => evaluate_extends h e

end Expr
end LessCss
