import LessCss.Expr.Value
import LessCss.Proofs.Expr.Formula
import LessCss.Proofs.Expr.Parentheses
import LessCss.Proofs.Token.Places
/-!
A number after a slash that touches its neighbours.

The operand before such a slash is a row that is read the same whatever comes after it (`OperandRow.run`). It is read
as a number only if it is a number token in some pairs of parentheses, or in none (`bracketed_of_number`). So the
slash divides, as it does with gaps around it, unless it follows such a token. Then slash and numbers are one word, and
that also where the parentheses are there (`evaluate_quotient`, `evaluate_bracketed`).
-/
namespace LessCss.Expr

open Tokens (depthAfter?)

/-- A row that stands for an operand. What is between its parentheses may be anything. -/
inductive OperandRow : List Token → Prop
  | leaf {t} (hk : t.kind = .number ∨ t.kind = .ident ∨ t.kind = .hash ∨ t.kind = .string ∨ t.kind = .url ∨
      t.kind = .atKeyword) : OperandRow [t]
  | escaped {tilde s} (htilde : tilde.isDelim '~' = true) (hs : s.kind = .string) : OperandRow [tilde, s]
  | call {f args close} (hf : f.kind = .function) (hpaired : depthAfter? (fun _ => false) 0 args = some 0)
    (hclose : close.kind = .rparen) : OperandRow (f :: (args ++ [close]))
  | negative {minus ts} (hminus : minus.isOperator '-' = true) (h : OperandRow ts) : OperandRow (minus :: ts)
  | parens {lp inner rp} (hopen : lp.kind = .lparen) (hpaired : depthAfter? (fun _ => false) 0 inner = some 0)
    (hclose : rp.kind = .rparen) : OperandRow (lp :: (inner ++ [rp]))

/-- The number token `a` in some pairs of parentheses, or in none. -/
inductive Bracketed (a : Token) : List Token → Prop
  | bare (hk : a.kind = .number) : Bracketed a [a]
  | parens {ts lp rp} (hopen : lp.kind = .lparen) (h : Bracketed a ts) (hclose : rp.kind = .rparen) :
    Bracketed a (lp :: (ts ++ [rp]))

/-- The operand `ls`, a slash and the number `text`, with gaps around the slash or without any. -/
def quotient (gap : Bool) (ls : List Token) (text : Text) (slash number : Position) : List Token :=
  ls ++ [⟨.operator, ['/'], slash, gap⟩, ⟨.number, text, number, gap⟩]

section Rows

variable {ts us rest : List Token} {t : Token} {budget : Nat} {inParens : Bool}

theorem OperandRow.run (h : OperandRow ts) (budget : Nat) (inParens : Bool) : ∃ o : Except Diagnostic Expr,
    ∀ last us, run (operand last budget inParens) (ts ++ us) = o.map fun e => (e, us) := by
  induction h generalizing budget inParens with
  | @leaf t hk =>
    have hminus : t.isOperator '-' = false := by rcases hk with h | h | h | h | h | h <;> simp [Token.isOperator, h]
    have hopen : t.kind ≠ .lparen := by rcases hk with h | h | h | h | h | h <;> simp [h]
    refine ⟨(runLeaf t []).map Prod.fst, fun last us => ?_⟩
    rw [List.singleton_append, run_operand_leaf last hminus hopen, runLeaf_eq, runLeaf_eq]
    rcases hk with hk | hk | hk | hk | hk | hk <;> rw [hk]
    · cases Measure.parse? t.text <;> rfl
    all_goals rfl
  | @escaped tilde s htilde hs =>
    have hk : tilde.kind = .delim := (of_decide_eq_true htilde).1
    refine ⟨.ok (.keyword s.text.tail.dropLast), fun last us => ?_⟩
    exact run_operand_of_leaf (by simp [Token.isOperator, hk]) (by simp [hk]) (.escaped htilde hs)
  | @call f args close hf hpaired hclose =>
    refine ⟨.ok (.function f.name args), fun last us => ?_⟩
    rw [List.cons_append, List.append_assoc]
    exact run_operand_of_leaf (by simp [Token.isOperator, hf]) (by simp [hf])
      (.function hf (Tokens.closeParen?_append hclose rfl hpaired))
  | @negative minus ts hminus _ ih =>
    cases budget with
    | zero =>
      refine ⟨.error (Fault.valueTooDeep.blame minus.position), fun last us => ?_⟩
      rw [List.cons_append, run_operand_cons, if_pos hminus]
      rfl
    | succ budget =>
      obtain ⟨o, ho⟩ := ih budget inParens
      refine ⟨o.map .negate, fun last us => ?_⟩
      rw [List.cons_append, run_operand_cons, if_pos hminus]
      dsimp only
      rw [ho, map_map, map_map]
  | @parens lp inner rp hopen hpaired hclose =>
    refine ⟨(Expr.run (operand .start budget inParens) (lp :: (inner ++ [rp]))).map Prod.fst, fun last us => ?_⟩
    have halike := run_parenthesized hopen hopen rfl hpaired hclose .start last (Nat.le_refl budget) inParens inParens us
    have hrow : lp :: (inner ++ [rp]) ++ us = lp :: (inner ++ rp :: us) := by simp
    rw [hrow]
    cases hread : Expr.run (operand .start budget inParens) (lp :: (inner ++ [rp])) with
    | error d => exact halike.error rfl d hread
    | ok p =>
      obtain ⟨e, rest⟩ := p
      obtain ⟨rfl, heq⟩ := halike.ok e rest hread
      exact heq

def IsNumber : Expr → Prop
  | .number .. => True
  | _ => False

variable {r : Reader} {e lhs : Expr} {es : List Expr}

theorem nil_of_collapse {separator : Separator} (h : IsNumber (collapse separator (e :: es))) : es = [] ∧ IsNumber e := by
  cases es with
  | nil => exact ⟨rfl, h⟩
  | cons e' es => exact h.elim

/-- Between parentheses the factors after an operand make it an operation, if there are any. -/
theorem factors_cases (h : factors r true lhs ts = .ok (e, rest)) : e = lhs ∧ rest = ts ∨ ¬IsNumber e := by
  induction hn : ts.length using Nat.strongRecOn generalizing lhs ts with
  | ind n ih =>
    subst hn
    cases ts with
    | nil =>
      rw [factors_nil] at h
      obtain ⟨rfl, rfl⟩ := Prod.mk.inj (Except.ok.inj h)
      exact .inl ⟨rfl, rfl⟩
    | cons t ts =>
      rw [factors_cons] at h
      split at h
      · obtain ⟨rfl, rfl⟩ := Prod.mk.inj (Except.ok.inj h)
        exact .inl ⟨rfl, rfl⟩
      · next op _ =>
        have hshort : shorthand? true lhs op t ts = none := by
          cases ts <;> cases lhs <;> simp [shorthand?]
        rw [hshort] at h
        obtain ⟨⟨rhs, after⟩, hrun, h⟩ := bind_eq_ok h
        rcases ih _ (Nat.lt_succ_of_lt (run_length hrun)) h rfl with ⟨rfl, -⟩ | hother
        · exact .inr id
        · exact .inr hother

theorem terms_cases (h : terms r lhs ts = .ok (e, rest)) : e = lhs ∧ rest = ts ∨ ¬IsNumber e := by
  induction hn : ts.length using Nat.strongRecOn generalizing lhs ts with
  | ind n ih =>
    subst hn
    cases ts with
    | nil =>
      rw [terms_nil] at h
      obtain ⟨rfl, rfl⟩ := Prod.mk.inj (Except.ok.inj h)
      exact .inl ⟨rfl, rfl⟩
    | cons t ts =>
      rw [terms_cons] at h
      split at h
      · obtain ⟨rfl, rfl⟩ := Prod.mk.inj (Except.ok.inj h)
        exact .inl ⟨rfl, rfl⟩
      · split at h
        · obtain ⟨rfl, rfl⟩ := Prod.mk.inj (Except.ok.inj h)
          exact .inl ⟨rfl, rfl⟩
        · obtain ⟨⟨rhs, after⟩, hrun, h⟩ := bind_eq_ok h
          rcases ih _ (Nat.lt_succ_of_lt (run_length hrun)) h rfl with ⟨rfl, -⟩ | hother
          · exact .inr id
          · exact .inr hother

theorem items_eq_nil (h : items r ts = .ok ([], rest)) : rest = ts := by
  cases ts with
  | nil =>
    rw [items_nil] at h
    exact (Prod.mk.inj (Except.ok.inj h)).2.symm
  | cons t ts =>
    rw [items_cons] at h
    split at h
    · obtain ⟨p, -, h⟩ := bind_eq_ok h
      obtain ⟨q, -, heq⟩ := map_eq_ok h
      cases heq
    · exact (Prod.mk.inj (Except.ok.inj h)).2.symm

theorem groups_eq_nil (h : groups r ts = .ok ([], rest)) : rest = ts := by
  cases ts with
  | nil =>
    rw [groups_nil] at h
    exact (Prod.mk.inj (Except.ok.inj h)).2.symm
  | cons t ts =>
    rw [groups_cons] at h
    split at h
    · obtain ⟨p, -, h⟩ := bind_eq_ok h
      obtain ⟨q, -, heq⟩ := map_eq_ok h
      cases heq
    · exact (Prod.mk.inj (Except.ok.inj h)).2.symm

theorem run_of_product_number (h : run (product r true) ts = .ok (e, rest)) (he : IsNumber e) :
    run r ts = .ok (e, rest) := by
  rw [run_product] at h
  obtain ⟨⟨lhs, after⟩, hrun, hfactors⟩ := bind_eq_ok h
  obtain ⟨rfl, rfl⟩ := (factors_cases hfactors).resolve_right fun hnot => hnot he
  exact hrun

theorem run_of_sum_number (h : run (sum r) ts = .ok (e, rest)) (he : IsNumber e) : run r ts = .ok (e, rest) := by
  rw [run_sum] at h
  obtain ⟨⟨lhs, after⟩, hrun, hterms⟩ := bind_eq_ok h
  obtain ⟨rfl, rfl⟩ := (terms_cases hterms).resolve_right fun hnot => hnot he
  exact hrun

theorem run_of_spaceList_number (h : run (spaceList r) ts = .ok (e, rest)) (he : IsNumber e) : run r ts = .ok (e, rest) := by
  rw [run_spaceList] at h
  obtain ⟨⟨item, after⟩, hrun, h⟩ := bind_eq_ok h
  obtain ⟨⟨es, last⟩, hitems, heq⟩ := map_eq_ok h
  obtain ⟨rfl, rfl⟩ := Prod.mk.inj heq
  obtain ⟨hnil, -⟩ := nil_of_collapse he
  dsimp only at hnil hitems ⊢
  subst hnil
  rw [items_eq_nil hitems]
  exact hrun

theorem run_of_commaList_number (h : run (commaList r) ts = .ok (e, rest)) (he : IsNumber e) : run r ts = .ok (e, rest) := by
  rw [run_commaList] at h
  obtain ⟨⟨group, after⟩, hrun, h⟩ := bind_eq_ok h
  obtain ⟨⟨es, last⟩, hgroups, heq⟩ := map_eq_ok h
  obtain ⟨rfl, rfl⟩ := Prod.mk.inj heq
  obtain ⟨hnil, -⟩ := nil_of_collapse he
  dsimp only at hnil hgroups ⊢
  subst hnil
  rw [groups_eq_nil hgroups]
  exact hrun

/-- Between parentheses a value is a number only if it is an operand by itself. -/
theorem run_of_value_number (h : run (value r true) ts = .ok (e, rest)) (he : IsNumber e) : run r ts = .ok (e, rest) := by
  have hgroup := run_of_commaList_number h he
  have hitem := run_of_spaceList_number hgroup he
  have hterm := run_of_sum_number hitem he
  exact run_of_product_number hterm he

/-- By induction on the budget: an operand that is a number is a number token in some pairs of parentheses. -/
theorem bracketed_of_number {last : Position} (h : run (operand last budget inParens) ts = .ok (e, rest))
    (he : IsNumber e) : ∃ a us, Bracketed a us ∧ ts = us ++ rest := by
  induction budget using Nat.strongRecOn generalizing inParens ts e rest with
  | ind budget ih =>
    cases operandRead_of_run h with
    | negative => exact he.elim
    | @parens budget t ts e close rest hopen h hclose =>
      obtain ⟨a, us, hbracketed, rfl⟩ := ih budget (Nat.lt_succ_self budget) (run_of_value_number h he) he
      exact ⟨a, t :: (us ++ [close]), .parens hopen hbracketed hclose, by simp⟩
    | @leaf _ t ts e rest _ _ h =>
      cases h with
      | number hk => exact ⟨t, [t], .bare hk, rfl⟩
      | keyword | reference | function | escaped => exact he.elim

theorem Bracketed.kind {a : Token} (h : Bracketed a ts) :
    ∀ t ∈ ts, t.kind = .number ∨ t.kind = .lparen ∨ t.kind = .rparen := by
  induction h with
  | bare hk => exact List.forall_mem_singleton.mpr (.inl hk)
  | parens hopen _ hclose ih =>
    rw [List.forall_mem_cons, List.forall_mem_append]
    exact ⟨.inr (.inl hopen), ih, List.forall_mem_singleton.mpr (.inr (.inr hclose))⟩

/-- Where the parentheses around a number token are not too many, they are read as the number. -/
theorem Bracketed.read {a : Token} (h : Bracketed a ts) {last : Position}
    (hread : run (operand last budget inParens) (ts ++ us) = .ok (e, rest)) :
    ∃ v unit, e = .number v unit a.text ∧ rest = us := by
  induction h generalizing budget inParens us e rest with
  | bare hk =>
    rw [List.singleton_append, run_operand_leaf last (by simp [Token.isOperator, hk]) (by simp [hk]), runLeaf_eq,
      hk] at hread
    dsimp only at hread
    split at hread
    · obtain ⟨rfl, rfl⟩ := Prod.mk.inj (Except.ok.inj hread)
      exact ⟨_, _, rfl, rfl⟩
    · cases hread
  | @parens ts lp rp hopen _ hclose ih =>
    have hrow : lp :: (ts ++ [rp]) ++ us = lp :: (ts ++ rp :: us) := by simp
    rw [hrow] at hread
    cases operandRead_of_run hread with
    | negative hminus => simp [Token.isOperator, hopen] at hminus
    | leaf _ hne => exact absurd hopen hne
    | @parens budget _ _ _ _ _ _ hvalue =>
      cases hrun : run (operand last budget true) (ts ++ rp :: us) with
      | error d =>
        rw [run_value_of_error hrun] at hvalue
        cases hvalue
      | ok p =>
        obtain ⟨e', after⟩ := p
        obtain ⟨v, unit, rfl, rfl⟩ := ih hrun
        rw [run_value_of_closes hrun fun t ht => Option.some.inj ht ▸ hclose] at hvalue
        obtain ⟨rfl, heq⟩ := Prod.mk.inj (Except.ok.inj hvalue)
        exact ⟨v, unit, rfl, (List.cons.inj heq).2.symm⟩

end Rows

section Quotients

variable {ls : List Token} {text : Text} {p q : Position} {gap : Bool} {o : Except Diagnostic Expr}

def slashed (gap : Bool) (text : Text) (p q : Position) (e : Expr) : Except Diagnostic Expr :=
  match shorthand? false e .divide ⟨.operator, ['/'], p, gap⟩ [⟨.number, text, q, gap⟩] with
  | some e => .ok e
  | none =>
    match Measure.parse? text with
    | some (v, unit) => .ok (.binary .divide e (.number v unit text) p)
    | none => .error ((Fault.invalidNumber text).blame q)

theorem ofTokens_quotient (h : ∀ last us, run (operand last maxNesting false) (ls ++ us) = o.map fun e => (e, us)) :
    ofTokens (quotient gap ls text p q) = o >>= slashed gap text p q := by
  rw [ofTokens_eq, value, run_commaList, run_spaceList, run_sum, run_product, quotient, h]
  cases o with
  | error d => rfl
  | ok e =>
    have hop : productOperator? ⟨.operator, ['/'], p, gap⟩ = some .divide := rfl
    simp only [Except.map, ok_bind, factors_cons, hop, slashed]
    cases shorthand? false e .divide ⟨.operator, ['/'], p, gap⟩ [⟨.number, text, q, gap⟩] with
    | some e => simp [factors_nil, terms_nil, items_nil, groups_nil, ok_bind, collapse]
    | none =>
      dsimp only
      rw [run_operand_leaf _ (by rfl) (by simp), runLeaf_eq]
      dsimp only
      cases Measure.parse? text with
      | none => rfl
      | some m => simp [factors_nil, terms_nil, items_nil, groups_nil, ok_bind, collapse]

/-- With gaps around it a slash divides, and without gaps unless a number is before it. -/
theorem slashed_of_divides {e : Expr} (h : gap = true ∨ ¬IsNumber e) : slashed gap text p q e =
    match Measure.parse? text with
    | some (v, unit) => .ok (.binary .divide e (.number v unit text) p)
    | none => .error ((Fault.invalidNumber text).blame q) := by
  have hshort : shorthand? false e .divide ⟨.operator, ['/'], p, gap⟩ [⟨.number, text, q, gap⟩] = none := by
    rcases h with rfl | h
    · cases e <;> simp [shorthand?]
    · cases e <;> first | rfl | exact absurd trivial h
  rw [slashed, hshort]

theorem forget_binary (op : Operator) (lhs rhs : Expr) (p p' : Position) (lookup : Lookup) :
    forget id ((binary op lhs rhs p).evaluate lookup) = forget id ((binary op lhs rhs p').evaluate lookup) := by
  rw [evaluate, evaluate]
  cases lhs.evaluate lookup with
  | error d => rfl
  | ok a =>
    rw [ok_bind, ok_bind]
    cases rhs.evaluate lookup with
    | error d => rfl
    | ok b => rw [ok_bind, ok_bind, ← operate_start, ← operate_start]

theorem forget_slashed {gap' : Bool} {p' q' : Position} {e : Expr} (h : gap = true ∨ ¬IsNumber e)
    (h' : gap' = true ∨ ¬IsNumber e) (lookup : Lookup) :
    forget id (slashed gap text p q e >>= evaluate lookup) = forget id (slashed gap' text p' q' e >>= evaluate lookup) := by
  rw [slashed_of_divides h, slashed_of_divides h']
  cases Measure.parse? text with
  | none => rfl
  | some m => exact forget_binary .divide e _ p p' lookup

/-- A slash between an operand and a number divides, whether it touches them or not, unless the operand is a number
token in some pairs of parentheses or in none. If it is, a slash that touches both makes one word of it and the number. -/
theorem evaluate_quotient (h : OperandRow ls) (text : Text) (p q p' q' : Position) (lookup : Lookup) :
    ((∀ a, ¬Bracketed a ls) → forget id (ofTokens (quotient false ls text p q) >>= evaluate lookup) =
      forget id (ofTokens (quotient true ls text p' q') >>= evaluate lookup)) ∧
    ∀ a, Bracketed a ls → ∀ e, ofTokens ls = .ok e →
      ofTokens (quotient false ls text p q) >>= evaluate lookup = .ok (.keyword (a.text ++ '/' :: text)) := by
  obtain ⟨o, ho⟩ := h.run maxNesting false
  rw [ofTokens_quotient ho, ofTokens_quotient ho]
  refine ⟨fun hnot => ?_, fun a ha e he => ?_⟩
  · cases o with
    | error d => rfl
    | ok e =>
      have hnumber : ¬IsNumber e := by
        intro he
        obtain ⟨a, us, hbracketed, heq⟩ := bracketed_of_number (ho .start []) he
        rw [List.append_nil, List.append_nil] at heq
        exact hnot a (heq ▸ hbracketed)
      exact forget_slashed (.inr hnumber) (.inl rfl) lookup
  · have hrun := ho ((ls.getLast?.map Token.position).getD .start) []
    rw [List.append_nil] at hrun
    rw [ofTokens_eq] at he
    cases o with
    | error d =>
      rw [run_value_of_error hrun] at he
      cases he
    | ok e' =>
      obtain ⟨v, unit, rfl, -⟩ := ha.read (ho .start [])
      rfl

/-- In `(1+2)/3` the slash divides as it does in `(1+2) / 3`, and `12px/2` is one word. -/
theorem evaluate_quotient_sum :
    let sum : List Token := [⟨.lparen, ['('], ⟨1, 1⟩, false⟩, ⟨.number, ['1'], ⟨1, 2⟩, false⟩,
      ⟨.operator, ['+'], ⟨1, 3⟩, false⟩, ⟨.number, ['2'], ⟨1, 4⟩, false⟩, ⟨.rparen, [')'], ⟨1, 5⟩, false⟩]
    let literal : Token := ⟨.number, "12px".toList, ⟨1, 1⟩, false⟩
    (OperandRow sum ∧ (∀ a, ¬Bracketed a sum) ∧
      ∀ lookup, forget id (ofTokens (quotient false sum ['3'] ⟨1, 6⟩ ⟨1, 7⟩) >>= evaluate lookup) =
        forget id (ofTokens (quotient true sum ['3'] ⟨1, 7⟩ ⟨1, 9⟩) >>= evaluate lookup)) ∧
    OperandRow [literal] ∧ Bracketed literal [literal] ∧ (∃ e, ofTokens [literal] = .ok e) ∧
      ∀ lookup, ofTokens (quotient false [literal] ['2'] ⟨1, 5⟩ ⟨1, 6⟩) >>= evaluate lookup =
        .ok (.keyword "12px/2".toList) := by
  intro sum literal
  have hpaired : depthAfter? (fun _ => false) 0 [⟨.number, ['1'], ⟨1, 2⟩, false⟩, ⟨.operator, ['+'], ⟨1, 3⟩, false⟩,
      ⟨.number, ['2'], ⟨1, 4⟩, false⟩] = some 0 := rfl
  have hsum : OperandRow sum := .parens rfl hpaired rfl
  have hnot : ∀ a, ¬Bracketed a sum := by
    intro a h
    have hk := h.kind ⟨.operator, ['+'], ⟨1, 3⟩, false⟩ (by simp [sum])
    revert hk
    decide
  have hliteral : OperandRow [literal] := .leaf (.inl rfl)
  have hread : ∃ e, ofTokens [literal] = .ok e := by
    obtain ⟨v, hv⟩ : ∃ v, Measure.parse? "12px".toList = some (v, "px".toList) := ⟨_, rfl⟩
    exact ⟨_, ofTokens_of_operand fun last => run_operand_of_leaf rfl (by decide) (.number rfl hv)⟩
  refine ⟨⟨hsum, hnot, fun lookup => ?_⟩, hliteral, .bare rfl, hread, fun lookup => ?_⟩
  · exact (evaluate_quotient hsum ['3'] ⟨1, 6⟩ ⟨1, 7⟩ ⟨1, 7⟩ ⟨1, 9⟩ lookup).1 hnot
  · obtain ⟨e, he⟩ := hread
    exact (evaluate_quotient hliteral ['2'] ⟨1, 5⟩ ⟨1, 6⟩ ⟨1, 5⟩ ⟨1, 6⟩ lookup).2 literal (.bare rfl) e he

/-- The slash in `(12px)/2` makes one word, while the one in `(12px) / 2` divides. -/
theorem evaluate_bracketed :
    let lp : Token := ⟨.lparen, ['('], ⟨1, 1⟩, false⟩
    let literal : Token := ⟨.number, "12px".toList, ⟨1, 2⟩, false⟩
    let rp : Token := ⟨.rparen, [')'], ⟨1, 6⟩, false⟩
    let ls := [lp, literal, rp]
    (Token.ofText "(12px)/2".toList = quotient false ls ['2'] ⟨1, 7⟩ ⟨1, 8⟩ ++ [⟨.eof, [], ⟨1, 9⟩, false⟩] ∧
      Token.ofText "(12px) / 2".toList = quotient true ls ['2'] ⟨1, 8⟩ ⟨1, 10⟩ ++ [⟨.eof, [], ⟨1, 11⟩, false⟩]) ∧
    ∀ lookup, ofTokens (quotient false ls ['2'] ⟨1, 7⟩ ⟨1, 8⟩) >>= evaluate lookup = .ok (.keyword "12px/2".toList) ∧
      ofTokens (quotient true ls ['2'] ⟨1, 8⟩ ⟨1, 10⟩) >>= evaluate lookup ≠ .ok (.keyword "12px/2".toList) := by
  intro lp literal rp ls
  refine ⟨⟨by decide +kernel, by decide +kernel⟩, fun lookup => ?_⟩
  obtain ⟨v, hv⟩ : ∃ v, Measure.parse? "12px".toList = some (v, "px".toList) := ⟨_, rfl⟩
  have hread : ∀ last us, run (operand last maxNesting false) (ls ++ us) =
      (Except.ok (.number v "px".toList "12px".toList)).map fun e => (e, us) := by
    intro last us
    have hleaf : run (operand last 127 true) (literal :: rp :: us) = .ok (.number v "px".toList "12px".toList, rp :: us) :=
      run_operand_of_leaf rfl (by decide) (.number rfl hv)
    exact run_operand_parens rfl rfl hleaf
  rw [ofTokens_quotient hread, ofTokens_quotient hread]
  refine ⟨rfl, ?_⟩
  obtain ⟨w, hw⟩ : ∃ w, Measure.parse? ['2'] = some (w, []) := ⟨_, rfl⟩
  rw [ok_bind, slashed_of_divides (.inl rfl), hw]
  dsimp only
  rw [ok_bind, evaluate, evaluate, evaluate, ok_bind, ok_bind, Value.operate]
  split <;> simp

end Quotients
end LessCss.Expr
