import LessCss.Proofs.Token.Parens
/-!
Tokens and diagnostics without their places.

`Token.unplaced` moves a token to the start of the text, and `Token.bare` also forgets whether a gap comes
before the end of the text. Every reader of this library gives the same for a row of tokens and for the row
without places, up to the places in what it gives; `forget` is that "up to".
-/
namespace LessCss

/-- A token at the start of the text. -/
def Token.unplaced (t : Token) : Token := { t with position := .start }

/-- A token without its place. What is before the end of the text counts for nothing. -/
def Token.bare (t : Token) : Token := { t with position := .start, spaced := t.spaced && t.kind ≠ .eof }

/-- A diagnostic that is blamed on the start of the text, if it is blamed on any place. -/
def Diagnostic.unplaced (d : Diagnostic) : Diagnostic := { d with position := d.position.map fun _ => .start }

/-- An outcome without the places in it. The function says how what was read forgets its places. -/
def forget {α β : Type} (f : α → β) : Except Diagnostic α → Except Diagnostic β
  | .ok a => .ok (f a)
  | .error d => .error d.unplaced

section Forget

variable {α β γ δ : Type}

@[simp] theorem forget_ok (f : α → β) (a : α) : forget f (.ok a) = .ok (f a) := rfl

@[simp] theorem forget_error (f : α → β) (d : Diagnostic) : forget f (.error d) = .error d.unplaced := rfl

@[simp] theorem Fault.unplaced_blame (f : Fault) (p : Position) : (f.blame p).unplaced = f.blame .start := rfl

@[simp] theorem Diagnostic.unplaced_none (f : Fault) : (Diagnostic.mk f none).unplaced = ⟨f, none⟩ := rfl

theorem forget_map (f : β → γ) (g : α → β) (r : Except Diagnostic α) :
    forget f (r.map g) = forget (fun a => f (g a)) r := by
  cases r <;> rfl

theorem map_forget (f : β → γ) (g : α → β) (r : Except Diagnostic α) :
    (forget g r).map f = forget (fun a => f (g a)) r := by
  cases r <;> rfl

/-- Two steps forget their places if each of them does. -/
theorem forget_bind {f : α → β} {g : γ → δ} {r : Except Diagnostic α} {k : α → Except Diagnostic γ}
    {k' : β → Except Diagnostic δ} (hk : ∀ a, r = .ok a → k' (f a) = forget g (k a)) :
    (forget f r >>= k') = forget g (r >>= k) := by
  cases r with
  | error d => rfl
  | ok a => exact hk a rfl

/-- Steps that forget their places, one for each member of a list. -/
theorem forget_mapM {f : γ → δ} {step : α → Except Diagnostic γ} {step' : β → Except Diagnostic δ} {g : α → β}
    (h : ∀ a, step' (g a) = forget f (step a)) (as : List α) :
    (as.map g).mapM step' = forget (List.map f) (as.mapM step) := by
  induction as with
  | nil => rfl
  | cons a as ih =>
    rw [List.map_cons, List.mapM_cons, List.mapM_cons, h a, ih]
    exact forget_bind fun c _ => forget_bind fun cs _ => rfl

end Forget

namespace Token

variable {t : Token}

@[simp] theorem unplaced_kind : t.unplaced.kind = t.kind := rfl

@[simp] theorem unplaced_text : t.unplaced.text = t.text := rfl

@[simp] theorem unplaced_spaced : t.unplaced.spaced = t.spaced := rfl

@[simp] theorem unplaced_position : t.unplaced.position = .start := rfl

@[simp] theorem unplaced_name : t.unplaced.name = t.name := rfl

@[simp] theorem unplaced_piece : t.unplaced.piece = t.piece := rfl

@[simp] theorem unplaced_isDelim (c : Char) : t.unplaced.isDelim c = t.isDelim c := rfl

@[simp] theorem unplaced_isOperator (c : Char) : t.unplaced.isOperator c = t.isOperator c := rfl

@[simp] theorem bare_kind : t.bare.kind = t.kind := rfl

@[simp] theorem bare_text : t.bare.text = t.text := rfl

@[simp] theorem bare_position : t.bare.position = .start := rfl

@[simp] theorem bare_name : t.bare.name = t.name := rfl

@[simp] theorem bare_isDelim (c : Char) : t.bare.isDelim c = t.isDelim c := rfl

theorem bare_of_kind_ne_eof (h : t.kind ≠ .eof) : t.bare = t.unplaced := by
  simp [bare, unplaced, h]

/-- Only the end of the text makes a difference between the two. -/
theorem map_bare_eq_map_unplaced {ts : List Token} (h : ∀ t ∈ ts, t.kind ≠ .eof) :
    ts.map bare = ts.map unplaced :=
  List.map_congr_left fun t ht => bare_of_kind_ne_eof (h t ht)

@[simp] theorem join_map_unplaced (ts : List Token) : join (ts.map unplaced) = join ts := by
  simp [join, Function.comp_def]

/-- A token with or without a gap before it. -/
def respaced (s : Bool) (t : Token) : Token := { t with spaced := s }

/-- No gap before the first token is written. -/
theorem join_respaced (s : Bool) (t : Token) (ts : List Token) : join (t.respaced s :: ts) = join (t :: ts) := by
  obtain ⟨kind, text, position, spaced⟩ := t
  cases text <;> simp [join, joinPieces, piece, respaced]

end Token

namespace Tokens

variable {f : Token → Token} {barrier : Token → Bool} {ts : List Token}

/-- The search for a parenthesis looks at kinds alone. -/
theorem closeParen?_map (hf : ∀ t, (f t).kind = t.kind) (hb : ∀ t, barrier (f t) = barrier t) (depth : Nat)
    (ts : List Token) : closeParen? barrier depth (ts.map f) =
      (closeParen? barrier depth ts).map fun p => (p.1.map f, p.2.map f) := by
  fun_induction closeParen? barrier depth ts <;> simp_all [closeParen?, Function.comp_def]

theorem depthAfter?_map (hf : ∀ t, (f t).kind = t.kind) (hb : ∀ t, barrier (f t) = barrier t) (depth : Nat)
    (ts : List Token) : depthAfter? barrier depth (ts.map f) = depthAfter? barrier depth ts := by
  fun_induction depthAfter? barrier depth ts <;> simp_all [depthAfter?]

theorem pieces_map (hf : ∀ t, (f t).kind = t.kind) (separator : Token.Kind) (depth : Nat) (ts : List Token) :
    pieces separator depth (ts.map f) = (pieces separator depth ts).map (List.map f) := by
  induction ts generalizing depth with
  | nil => rfl
  | cons t ts ih =>
    simp only [List.map_cons, pieces, hf, ih]
    split
    · rfl
    · generalize pieces separator _ ts = ps
      cases ps <;> rfl

/-- Arguments are parted by kinds alone. -/
theorem arguments_map (hf : ∀ t, (f t).kind = t.kind) (ts : List Token) :
    arguments (ts.map f) = (arguments ts).map (List.map f) := by
  simp only [arguments, List.any_map, Function.comp_def, hf, pieces_map hf, List.filter_map, List.isEmpty_map]

end Tokens
end LessCss
