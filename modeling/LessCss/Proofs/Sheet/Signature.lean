import LessCss.Proofs.Sheet.Written
/-!
Signatures of mixins as they are written.

A name or an opening at the head of a row is read as the signature it spells (`Name.read`, `Opening.read`), and
every signature that is read has been spelled so (`spells_of_read?`).
-/
namespace LessCss.Written

open Tokens

theorem read?_dotted {dot word : Token} {ts : List Token} (hd : dot.isDelim '.' = true)
    (hs : word.spaced = false) : Signature.read? (dot :: word :: ts) =
      match word.kind with
      | .ident => Signature.named ('.' :: word.text) ts
      | .function => Signature.opened ('.' :: word.name) ts
      | _ => none := by
  rw [Signature.read?, if_pos hd]
  exact if_neg (by simp [hs])

theorem read?_hash {t : Token} {ts : List Token} (hk : t.kind = .hash) :
    Signature.read? (t :: ts) = Signature.named t.text ts := by
  simp [Signature.read?, isDelim_eq_false, hk]

theorem Name.read (n : Name) (ts : List Token) :
    Signature.read? (n.tokens ++ ts) = Signature.named n.text ts := by
  cases n with
  | dotted dot word => simp [tokens, text, read?_dotted dot.2 word.2.2, word.2.1]
  | hash h => simp [tokens, text, read?_hash h.2]

theorem named_of_ne_lparen {name : Text} {t : Token} {ts : List Token} (h : t.kind ≠ .lparen) :
    Signature.named name (t :: ts) = some ⟨name, none, t :: ts⟩ := by
  simp [Signature.named, h]

theorem Opening.read (o : Opening) (ts : List Token) :
    Signature.read? (o.tokens ++ ts) = Signature.opened o.text ts := by
  cases o with
  | paren name lparen => simp [tokens, text, Name.read, Signature.named, lparen.2]
  | function dot word => simp [tokens, text, read?_dotted dot.2 word.2.2, word.2.1]

theorem opened_append {name : Text} {args rest : List Token} (close : Mark .rparen)
    (h : depthAfter? endsArguments 0 args = some 0) :
    Signature.opened name (args ++ close.1 :: rest) = some ⟨name, some args, rest⟩ := by
  simp [Signature.opened, closeParen?_append close.2 (by simp [endsArguments, close.2]) h]

/-- A signature and the row of tokens at the head of which it stands: a name alone, or an opening with the
arguments up to the parenthesis that closes it. -/
inductive Spells : List Token → Signature → Prop
  | name (n : Name) (rest : List Token) : Spells (n.tokens ++ rest) ⟨n.text, none, rest⟩
  | opening (o : Opening) (args : List Token) (close : Mark .rparen) (rest : List Token) :
      depthAfter? endsArguments 0 args = some 0 →
      Spells (o.tokens ++ (args ++ close.1 :: rest)) ⟨o.text, some args, rest⟩

theorem Opening.spells (o : Opening) {ts : List Token} {s : Signature}
    (h : Signature.opened o.text ts = some s) : Spells (o.tokens ++ ts) s := by
  simp only [Signature.opened, Option.map_eq_some_iff, Prod.exists] at h
  obtain ⟨args, rest, hc, rfl⟩ := h
  obtain ⟨close, hk, rfl, hd⟩ := closeParen?_eq_some hc
  exact .opening o args ⟨close, hk⟩ rest hd

theorem Name.spells (n : Name) {ts : List Token} {s : Signature}
    (h : Signature.named n.text ts = some s) : Spells (n.tokens ++ ts) s := by
  cases ts with
  | nil =>
    simp only [Signature.named, Option.some.injEq] at h
    exact h ▸ .name n []
  | cons t ts =>
    by_cases hk : t.kind = .lparen
    · have hs : Spells ((Opening.paren n ⟨t, hk⟩).tokens ++ ts) s :=
        Opening.spells _ (by simpa [Signature.named, hk, Opening.text] using h)
      simpa [Opening.tokens] using hs
    · rw [named_of_ne_lparen hk, Option.some.injEq] at h
      exact h ▸ .name n (t :: ts)

theorem spells_of_read? {ts : List Token} {s : Signature} (h : Signature.read? ts = some s) :
    Spells ts s := by
  cases ts with
  | nil => simp [Signature.read?] at h
  | cons t ts =>
    by_cases hd : t.isDelim '.' = true
    · cases ts with
      | nil => simp [Signature.read?, hd, next] at h
      | cons u us =>
        cases hs : u.spaced with
        | true => simp [Signature.read?, hd, hs] at h
        | false =>
          rw [read?_dotted hd hs] at h
          split at h
          · next hk => exact Name.spells (.dotted ⟨t, hd⟩ ⟨u, hk, hs⟩) h
          · next hk => exact Opening.spells (.function ⟨t, hd⟩ ⟨u, hk, hs⟩) h
          · simp at h
    · by_cases hk : t.kind = .hash
      · rw [read?_hash hk] at h
        exact Name.spells (.hash ⟨t, hk⟩) h
      · rw [read?_eq_none (by simpa using hd) hk] at h
        simp at h

/-- A signature begins with a `.` or with a hash. -/
theorem Spells.begins {own : List Token} {s : Signature} (h : Spells own s) :
    ∃ t us, own = t :: us ∧ (t.kind = .delim ∨ t.kind = .hash) := by
  have hname : ∀ (n : Name) rest, ∃ t us, n.tokens ++ rest = t :: us ∧ (t.kind = .delim ∨ t.kind = .hash) := by
    intro n rest
    cases n with
    | dotted dot word => exact ⟨dot.1, word.1 :: rest, rfl, .inl (kind_of_isDelim dot.2)⟩
    | hash h => exact ⟨h.1, rest, rfl, .inr h.2⟩
  cases h with
  | name n rest => exact hname n rest
  | opening o args close rest =>
    cases o with
    | paren n lparen =>
      rw [Opening.tokens, List.append_assoc]
      exact hname n _
    | function dot word => exact ⟨dot.1, _, rfl, .inl (kind_of_isDelim dot.2)⟩

/-- A signature stands in front of what is left after it. -/
theorem Spells.cut {ts : List Token} {s : Signature} (h : Spells ts s) :
    ∃ own, ts = own ++ s.rest ∧ Spells own ⟨s.name, s.args, []⟩ := by
  cases h with
  | name n rest => exact ⟨n.tokens, rfl, by simpa using Spells.name n []⟩
  | opening o args close rest hargs => exact ⟨_, by simp, .opening o args close [] hargs⟩

/-- A signature is read again before whatever does not open its parentheses. -/
theorem Spells.read {own rest : List Token} {name : Text} {args : Option (List Token)}
    (h : Spells own ⟨name, args, []⟩) (hrest : (next rest).kind ≠ .lparen) :
    Signature.read? (own ++ rest) = some ⟨name, args, rest⟩ := by
  cases h with
  | name n =>
    rw [List.append_nil, n.read]
    cases rest with
    | nil => rfl
    | cons t rest => exact named_of_ne_lparen hrest
  | opening o args close _ hargs =>
    rw [List.append_assoc, List.append_assoc, o.read]
    exact opened_append close hargs

end LessCss.Written
