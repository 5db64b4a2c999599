import LessCss.Sheet
import LessCss.Expr.Reader
import LessCss.Expr.Value
/-!
Scopes, and the values of the bindings in them.

The scopes that can be seen from a block are listed from the innermost out. A variable that the sheet defines
stays a row of tokens until it is used. It is then evaluated in the scope that defines it, with the variable
itself marked as pending, so a definition that leads back to itself is noticed. Each look-up of a definition
leaves fewer definitions unmarked, so look-ups end.
-/
namespace LessCss

inductive Binding
  | deferred (value : List Token)
  | pending
  | resolved (v : Value)
deriving Repr

/-- A mixin: a rule that can be called by its selector, or a definition with parameters. -/
inductive Mixin
  | plain (body : List Item)
  | parametric (params : List Parameter) (body : List Item)
deriving Repr

/-- The definitions of one block. Of two bindings with one name the one listed first counts. Mixins are listed
in the order of the block. -/
structure Scope where
  bindings : List (Text × Binding)
  mixins : List (Text × Mixin)
deriving Repr

abbrev Scopes := List Scope

namespace Scope

/-- The binding of a name, and the bindings with that binding marked as pending. -/
def find? (name : Text) : List (Text × Binding) → Option (Binding × List (Text × Binding))
  | [] => none
  | (n, b) :: rest =>
    if n = name then some (b, (n, .pending) :: rest)
    else (find? name rest).map fun (found, marked) => (found, (n, b) :: marked)

/-- Binds a name to a value, over what the name was bound to before. -/
def bind (s : Scope) (name : Text) (v : Value) : Scope :=
  { s with bindings := (name, .resolved v) :: s.bindings }

def empty : Scope := ⟨[], []⟩

def binding? : Item → Option (Text × Binding)
  | .definition d => some (d.name, .deferred d.value)
  | _ => none

/-- A `.` or `#` and a name of ASCII characters: the selector of a rule that can be called. -/
def isCallable : Text → Bool
  | [] => false
  | c :: cs =>
    (c == '.' || c == '#') && !cs.isEmpty && cs.all fun d => d.isAlphanum || d == '_' || d == '-'

/-- The mixin that an item defines. A rule can be called if it has a single selector of the simple kind. -/
def mixin? : Item → Option (Text × Mixin)
  | .rule [selector] body => if isCallable selector then some (selector, .plain body) else none
  | .mixin name params body => some (name, .parametric params body)
  | _ => none

/-- The definitions of a block, wherever they stand in it. The last definition of a variable counts. -/
def ofItems (items : List Item) : Scope :=
  ⟨(items.filterMap binding?).reverse, items.filterMap mixin?⟩

def mixinsNamed (s : Scope) (name : Text) : List Mixin :=
  s.mixins.filterMap fun (n, m) => if n = name then some m else none

def deferredCount : List (Text × Binding) → Nat
  | [] => 0
  | (_, .deferred _) :: rest => deferredCount rest + 1
  | _ :: rest => deferredCount rest

theorem deferredCount_find? {name : Text} {bindings marked : List (Text × Binding)} {value : List Token}
    (h : find? name bindings = some (.deferred value, marked)) :
    deferredCount marked < deferredCount bindings := by
  fun_induction find? name bindings generalizing marked with
  | case1 => simp at h
  | case2 b rest =>
    simp only [Option.some.injEq, Prod.mk.injEq] at h
    obtain ⟨rfl, rfl⟩ := h
    simp [deferredCount]
  | case3 n b rest hn ih =>
    simp only [Option.map_eq_some_iff, Prod.mk.injEq, Prod.exists] at h
    obtain ⟨found, m, hf, rfl, rfl⟩ := h
    have := ih hf
    cases b <;> simp only [deferredCount] <;> omega

end Scope

namespace Scopes

/-- The binding of a name in the innermost scope that binds it, and the scopes from that one out with the
binding marked as pending. -/
def find? (name : Text) : Scopes → Option (Binding × Scopes)
  | [] => none
  | s :: outer =>
    match Scope.find? name s.bindings with
    | some (b, marked) => some (b, { s with bindings := marked } :: outer)
    | none => find? name outer

def deferredCount : Scopes → Nat
  | [] => 0
  | s :: outer => Scope.deferredCount s.bindings + deferredCount outer

theorem deferredCount_find? {name : Text} {scopes home : Scopes} {value : List Token}
    (h : find? name scopes = some (.deferred value, home)) : deferredCount home < deferredCount scopes := by
  induction scopes with
  | nil => simp [find?] at h
  | cons s outer ih =>
    simp only [find?] at h
    split at h
    · next b marked hs =>
      simp only [Option.some.injEq, Prod.mk.injEq] at h
      obtain ⟨rfl, rfl⟩ := h
      have := Scope.deferredCount_find? hs
      simp only [deferredCount]
      omega
    · have := ih h
      simp only [deferredCount]
      omega

/-- The value of a variable. A definition is evaluated in the scope that holds it. -/
def resolve (scopes : Scopes) : Lookup := fun name p =>
  match _h : find? name scopes with
  | none => .error ((Fault.undefinedVariable name).blame p)
  | some (.resolved v, _) => .ok v
  | some (.pending, _) => .error ((Fault.recursiveVariable name).blame p)
  | some (.deferred value, home) => do (← Expr.ofTokens value).evaluate (resolve home)
termination_by scopes.deferredCount
decreasing_by exact deferredCount_find? _h

def evaluate (scopes : Scopes) (value : List Token) : Except Diagnostic Value := do
  (← Expr.ofTokens value).evaluate (resolve scopes)

def mixinsNamed (scopes : Scopes) (name : Text) : List Mixin :=
  (scopes.map (·.mixinsNamed name)).find? (!·.isEmpty) |>.getD []

end Scopes
end LessCss
