import LessCss.Expr.Value
import LessCss.Proofs.Outcome
/-!
Arithmetic on numbers: expressions that are made with operators and minus signs from numbers, and from variables that
are numbers.

Its nodes are evaluated from left to right, each after its operands. Either all of them evaluate, and the result has the
first unit that is written in the expression (`Computes`), or the first division by zero among them gets the blame
(`Fails`). There is one case for each former, and `evaluate_arithmetic` puts them together.
-/
namespace LessCss

namespace Dimension

variable {op : Operator} {a b d : Dimension}

theorem of_operate? (h : operate? op a b = some d) : d.text = none ∧ d.unit = commonUnit a b := by
  cases op with
  | add | subtract | multiply => exact Option.some.inj h ▸ ⟨rfl, rfl⟩
  | divide =>
    rw [operate?] at h
    split at h
    · cases h
    · exact Option.some.inj h ▸ ⟨rfl, rfl⟩

theorem operate?_eq_none_iff : operate? op a b = none ↔ op = .divide ∧ (b.value == 0) = true := by
  cases op <;> simp [operate?]

theorem commonUnit_eq (a b : Dimension) : commonUnit a b = a.unit ∨ commonUnit a b = b.unit := by
  unfold commonUnit
  split
  · exact .inr rfl
  · exact .inl rfl

end Dimension

theorem Value.operate_eq_ok {op : Operator} {p : Position} {v w result : Value} (h : operate op p v w = .ok result) :
    ∃ a b d, v = .dimension a ∧ w = .dimension b ∧ result = .dimension d ∧ Dimension.operate? op a b = some d := by
  unfold operate at h
  split at h
  · split at h
    · next hd => exact ⟨_, _, _, rfl, rfl, (Except.ok.inj h).symm, hd⟩
    · cases h
  · cases h

/-- The first of some units that is not empty. It is empty if all of them are. -/
def firstUnit (units : List Text) : Text := (units.find? (!·.isEmpty)).getD []

theorem firstUnit_singleton (u : Text) : firstUnit [u] = u := by
  cases u <;> rfl

theorem firstUnit_append (us vs : List Text) :
    firstUnit (us ++ vs) = if (firstUnit us).isEmpty then firstUnit vs else firstUnit us := by
  induction us with
  | nil => rfl
  | cons u us ih =>
    cases u with
    | nil => exact ih
    | cons c u => rfl

namespace Expr

/-- Made with operators and minus signs from numbers, and from variables that are numbers. -/
inductive Arithmetic (lookup : Lookup) : Expr → Prop
  | number (value unit text) : Arithmetic lookup (.number value unit text)
  | reference {name p d} (h : lookup name p = .ok (.dimension d)) : Arithmetic lookup (.reference name p)
  | negate {operand} (h : Arithmetic lookup operand) : Arithmetic lookup (.negate operand)
  | binary {lhs rhs} (op p) (hlhs : Arithmetic lookup lhs) (hrhs : Arithmetic lookup rhs) :
    Arithmetic lookup (.binary op lhs rhs p)

variable {lookup : Lookup} {e : Expr} {p : Position}

/-- Whether an expression is made with an operator or a minus sign. -/
def isComputed : Expr → Bool
  | .negate _ | .binary .. => true
  | _ => false

/-- The nodes of arithmetic in the order in which they are evaluated. -/
def nodes : Expr → List Expr
  | .negate operand => nodes operand ++ [.negate operand]
  | .binary op lhs rhs p => nodes lhs ++ nodes rhs ++ [.binary op lhs rhs p]
  | e => [e]

/-- The units of the numbers in arithmetic, from left to right. -/
def units (lookup : Lookup) : Expr → List Text
  | .number _ unit _ => [unit]
  | .reference name p =>
    match lookup name p with
    | .ok (.dimension d) => [d.unit]
    | _ => []
  | .negate operand => units lookup operand
  | .binary _ lhs rhs _ => units lookup lhs ++ units lookup rhs
  | _ => []

def Evaluates (lookup : Lookup) (e : Expr) : Prop := ∃ v, e.evaluate lookup = .ok v

/-- A division at `p` by a number that is zero. -/
def DividesByZero (lookup : Lookup) (p : Position) (e : Expr) : Prop :=
  ∃ lhs rhs d, e = .binary .divide lhs rhs p ∧ rhs.evaluate lookup = .ok (.dimension d) ∧ (d.value == 0) = true

/-- Every node before a division by zero at `p` evaluates. -/
def StopsAt (lookup : Lookup) (e : Expr) (p : Position) : Prop :=
  ∃ before n after, nodes e = before ++ n :: after ∧ (∀ m ∈ before, Evaluates lookup m) ∧ DividesByZero lookup p n

theorem DividesByZero.not_evaluates (h : DividesByZero lookup p e) : ¬Evaluates lookup e := by
  obtain ⟨lhs, rhs, d, rfl, hrhs, hzero⟩ := h
  rintro ⟨v, hv⟩
  rw [evaluate, hrhs] at hv
  obtain ⟨a, -, hv⟩ := bind_eq_ok hv
  rw [ok_bind] at hv
  cases a with
  | dimension a =>
    rw [Value.operate, Dimension.operate?_eq_none_iff.mpr ⟨rfl, hzero⟩] at hv
    cases hv
  | keyword | list => cases hv

/-- In a row there is one first place where a property fails. -/
theorem eq_of_first {α : Type} {P : α → Prop} {before before' after after' : List α} {a a' : α}
    (h : before ++ a :: after = before' ++ a' :: after') (hbefore : ∀ b ∈ before, P b) (ha : ¬P a)
    (hbefore' : ∀ b ∈ before', P b) (ha' : ¬P a') : a = a' := by
  induction before generalizing before' with
  | nil =>
    cases before' with
    | nil => exact (List.cons.inj h).1
    | cons b before' => exact absurd (hbefore' a ((List.cons.inj h).1 ▸ List.mem_cons_self)) ha
  | cons b before ih =>
    cases before' with
    | nil => exact absurd (hbefore a' ((List.cons.inj h).1 ▸ List.mem_cons_self)) ha'
    | cons b' before' =>
      rw [List.forall_mem_cons] at hbefore hbefore'
      exact ih (List.cons.inj h).2 hbefore.2 hbefore'.2

theorem StopsAt.unique {q : Position} (h : StopsAt lookup e p) (hq : StopsAt lookup e q) : p = q := by
  obtain ⟨before, n, after, hnodes, hbefore, hn⟩ := h
  obtain ⟨before', n', after', hnodes', hbefore', hn'⟩ := hq
  obtain rfl := eq_of_first (hnodes.symm.trans hnodes') hbefore hn.not_evaluates hbefore' hn'.not_evaluates
  obtain ⟨_, _, _, rfl, -⟩ := hn
  obtain ⟨_, _, _, heq, -⟩ := hn'
  injection heq

theorem not_stopsAt (h : ∀ n ∈ nodes e, Evaluates lookup n) (p : Position) : ¬StopsAt lookup e p := by
  rintro ⟨before, n, after, hnodes, -, hn⟩
  apply hn.not_evaluates
  exact h n (by simp [hnodes])

theorem StopsAt.of_nodes {e' : Expr} {vs : List Expr} (us : List Expr) (h : StopsAt lookup e p)
    (hus : ∀ m ∈ us, Evaluates lookup m) (hnodes : nodes e' = us ++ nodes e ++ vs) : StopsAt lookup e' p := by
  obtain ⟨before, n, after, heq, hbefore, hn⟩ := h
  refine ⟨us ++ before, n, after ++ vs, ?_, List.forall_mem_append.mpr ⟨hus, hbefore⟩, hn⟩
  rw [hnodes, heq]
  simp

/-- All nodes evaluate, and the number has the first unit. It has a spelling only if nothing is computed. -/
def Computes (lookup : Lookup) (e : Expr) : Prop :=
  ∃ d, e.evaluate lookup = .ok (.dimension d) ∧ d.unit = firstUnit (units lookup e) ∧
    (e.isComputed = true → d.text = none) ∧ ∀ n ∈ nodes e, Evaluates lookup n

/-- The first node that does not evaluate is a division by zero, which gets the blame. -/
def Fails (lookup : Lookup) (e : Expr) : Prop :=
  ∃ p, e.evaluate lookup = .error (Fault.divisionByZero.blame p) ∧ StopsAt lookup e p

theorem Computes.number (value : Float) (unit : Text) (text : Text) : Computes lookup (.number value unit text) :=
  ⟨⟨value, unit, some text⟩, rfl, (firstUnit_singleton unit).symm, nofun, List.forall_mem_singleton.mpr ⟨_, rfl⟩⟩

theorem Computes.reference {name : Text} {d : Dimension} (h : lookup name p = .ok (.dimension d)) :
    Computes lookup (.reference name p) := by
  have hunits : units lookup (.reference name p) = [d.unit] := by rw [units, h]
  refine ⟨d, h, ?_, nofun, List.forall_mem_singleton.mpr ⟨_, h⟩⟩
  rw [hunits, firstUnit_singleton]

theorem Computes.negate (h : Computes lookup e) : Computes lookup (.negate e) := by
  obtain ⟨d, hd, hunit, -, hnodes⟩ := h
  have hvalue : (Expr.negate e).evaluate lookup = .ok (.dimension d.negate) := by
    rw [evaluate, hd]
    rfl
  refine ⟨d.negate, hvalue, hunit, fun _ => rfl, ?_⟩
  exact List.forall_mem_append.mpr ⟨hnodes, List.forall_mem_singleton.mpr ⟨_, hvalue⟩⟩

theorem Fails.negate (h : Fails lookup e) : Fails lookup (.negate e) := by
  obtain ⟨p, herror, hstops⟩ := h
  refine ⟨p, ?_, hstops.of_nodes [] nofun rfl⟩
  rw [evaluate, herror]
  rfl

section Binary

variable {op : Operator} {lhs rhs : Expr}

theorem Fails.binary_left (h : Fails lookup lhs) : Fails lookup (.binary op lhs rhs p) := by
  obtain ⟨q, herror, hstops⟩ := h
  refine ⟨q, ?_, hstops.of_nodes [] nofun (List.append_assoc ..)⟩
  rw [evaluate, herror]
  rfl

theorem Fails.binary_right (hlhs : Computes lookup lhs) (h : Fails lookup rhs) : Fails lookup (.binary op lhs rhs p) := by
  obtain ⟨a, ha, -, -, hnodes⟩ := hlhs
  obtain ⟨q, herror, hstops⟩ := h
  refine ⟨q, ?_, hstops.of_nodes (nodes lhs) hnodes rfl⟩
  rw [evaluate, ha, ok_bind, herror]
  rfl

/-- An operator between two numbers computes a number, or divides by zero. -/
theorem Computes.binary (hlhs : Computes lookup lhs) (hrhs : Computes lookup rhs) :
    Computes lookup (.binary op lhs rhs p) ∨ Fails lookup (.binary op lhs rhs p) := by
  obtain ⟨a, ha, haunit, -, hlnodes⟩ := hlhs
  obtain ⟨b, hb, hbunit, -, hrnodes⟩ := hrhs
  have hoperands := List.forall_mem_append.mpr ⟨hlnodes, hrnodes⟩
  have hvalue : (Expr.binary op lhs rhs p).evaluate lookup = Value.operate op p (.dimension a) (.dimension b) := by
    rw [evaluate, ha, hb]
    rfl
  cases hd : Dimension.operate? op a b with
  | some d =>
    rw [Value.operate, hd] at hvalue
    obtain ⟨htext, hunit⟩ := Dimension.of_operate? hd
    refine .inl ⟨d, hvalue, ?_, fun _ => htext, ?_⟩
    · rw [hunit, units, firstUnit_append, ← haunit, ← hbunit, Dimension.commonUnit]
    · exact List.forall_mem_append.mpr ⟨hoperands, List.forall_mem_singleton.mpr ⟨_, hvalue⟩⟩
  | none =>
    rw [Value.operate, hd] at hvalue
    obtain ⟨rfl, hzero⟩ := Dimension.operate?_eq_none_iff.mp hd
    exact .inr ⟨p, hvalue, nodes lhs ++ nodes rhs, _, [], rfl, hoperands, lhs, rhs, b, rfl, hb, hzero⟩

end Binary

theorem Arithmetic.ends (h : Arithmetic lookup e) : Computes lookup e ∨ Fails lookup e := by
  induction h with
  | number value unit text => exact .inl (.number value unit text)
  | reference h => exact .inl (.reference h)
  | negate _ ih => exact ih.imp Computes.negate Fails.negate
  | binary op p _ _ ihl ihr =>
    rcases ihl with hlhs | hlhs
    · rcases ihr with hrhs | hrhs
      · exact hlhs.binary hrhs
      · exact .inr (.binary_right hlhs hrhs)
    · exact .inr hlhs.binary_left

/-- Computed arithmetic gives a number without a spelling, the unit of which is the first that is written in it, or it
divides by zero. It does so exactly if a division by zero follows nodes that all evaluate, and there is one place at
most where that is so. -/
theorem evaluate_arithmetic (h : Arithmetic lookup e) (hcomputed : e.isComputed = true) :
    ((∃ d, e.evaluate lookup = .ok (.dimension d) ∧ d.text = none ∧ d.unit = firstUnit (units lookup e)) ∧
      ∀ p, ¬StopsAt lookup e p) ∨
    ∃ p, (e.evaluate lookup).mapError Diagnostic.report = .error ⟨.runtime, "Division by zero", some p⟩ ∧
      ∀ q, StopsAt lookup e q ↔ q = p := by
  rcases h.ends with ⟨d, hd, hunit, htext, hnodes⟩ | ⟨p, herror, hstops⟩
  · exact .inl ⟨⟨d, hd, htext hcomputed, hunit⟩, not_stopsAt hnodes⟩
  · refine .inr ⟨p, ?_, fun q => ⟨fun hq => hq.unique hstops, fun hq => hq ▸ hstops⟩⟩
    rw [herror]
    rfl

/-- The variable `@a` is `3px`, and there is no other. -/
def threePixels : Lookup := fun name p =>
  if name = ['a'] then .ok (.dimension ⟨3, ['p', 'x'], some ['3', 'p', 'x']⟩)
  else .error ((Fault.undefinedVariable name).blame p)

/-- The expression `-(1 / (@a - 3)) + 2 / 0`. -/
def twoRatios : Expr :=
  .binary .add
    (.negate (.binary .divide (.number 1 [] ['1'])
      (.binary .subtract (.reference ['a'] ⟨1, 8⟩) (.number 3 [] ['3']) ⟨1, 11⟩) ⟨1, 5⟩))
    (.binary .divide (.number 2 [] ['2']) (.number 0 [] ['0']) ⟨1, 21⟩) ⟨1, 17⟩

/-- Both divisions of `-(1 / (@a - 3)) + 2 / 0` are by zero, and the first of them gets the blame. -/
theorem evaluate_arithmetic_ratios : StopsAt threePixels twoRatios ⟨1, 5⟩ ∧
    (twoRatios.evaluate threePixels).mapError Diagnostic.report =
      .error ⟨.runtime, "Division by zero", some ⟨1, 5⟩⟩ := by
  have harithmetic : Arithmetic threePixels twoRatios :=
    .binary _ _ (.negate (.binary _ _ (.number ..) (.binary _ _ (.reference rfl) (.number ..))))
      (.binary _ _ (.number ..) (.number ..))
  have hstops : StopsAt threePixels twoRatios ⟨1, 5⟩ := by
    refine ⟨(nodes twoRatios).take 4, _, (nodes twoRatios).drop 5, rfl, ?_, _, _, _, rfl, rfl, by decide⟩
    intro n hn
    simp only [nodes, twoRatios, List.cons_append, List.nil_append, List.take_succ_cons, List.take_zero,
      List.mem_cons, List.not_mem_nil, or_false] at hn
    rcases hn with rfl | rfl | rfl | rfl <;> exact ⟨_, rfl⟩
  refine ⟨hstops, ?_⟩
  rcases evaluate_arithmetic harithmetic rfl with ⟨-, hnone⟩ | ⟨p, herror, hp⟩
  · exact absurd hstops (hnone _)
  · rw [herror, (hp _).mp hstops]

end Expr
end LessCss
