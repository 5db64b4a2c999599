import LessCss.Proofs.Sheet.Selectors
/-!
How a row of tokens is parted into arguments.

The arguments of a row, one behind the other, are the row without its outer separators (`flatten_groups`): nothing else
is lost. The other way round, groups that are written with separators between them are the arguments of what is written
(`groups_written`). Both are put together in `arguments_parted`.
-/
namespace LessCss.Tokens

/-- What parts the arguments of a row: `;` if there is one anywhere, else `,`. -/
def separatorOf (ts : List Token) : Token.Kind := if ts.any (·.kind = .semicolon) then .semicolon else .comma

/-- A separator that stands behind the tokens `before` and outside all parentheses. The count of open parentheses starts
from `depth` and never falls below none. -/
def isOuter (separator : Token.Kind) (depth : Nat) (before : List Token) (t : Token) : Bool :=
  t.kind = separator ∧ before.foldl tally depth = 0

/-- A row without its outer separators. -/
def withoutOuter (separator : Token.Kind) (depth : Nat) (ts : List Token) : List Token :=
  (ts.zipIdx.filter fun p => !isOuter separator depth (ts.take p.2) p.1).map Prod.fst

/-- The pieces between the outer separators that are not empty. -/
def groups (separator : Token.Kind) (ts : List Token) : List (List Token) :=
  (pieces separator 0 ts).filter (!·.isEmpty)

/-- A group that can be parted from others: it is not empty, its parentheses have their partners in it, and no separator
in it stands outside them. -/
structure IsGroup (separator : Token.Kind) (g : List Token) : Prop where
  ne_nil : g ≠ []
  paired : Paired g
  whole : withoutOuter separator 0 g = g

instance (separator : Token.Kind) (g : List Token) : Decidable (IsGroup separator g) :=
  decidable_of_iff (g ≠ [] ∧ Paired g ∧ withoutOuter separator 0 g = g)
    ⟨fun h => ⟨h.1, h.2.1, h.2.2⟩, fun h => ⟨h.ne_nil, h.paired, h.whole⟩⟩

/-- Groups, each with the tokens that stand behind it, as one row. -/
def written (rows : List (List Token × List Token)) : List Token := rows.flatMap fun r => r.1 ++ r.2

variable {separator : Token.Kind} {depth : Nat} {t : Token} {ts us g rest : List Token}

theorem arguments_eq_groups (ts : List Token) : arguments ts = groups (separatorOf ts) ts := rfl

theorem separatorOf_eq (ts : List Token) : separatorOf ts = .semicolon ∨ separatorOf ts = .comma := by
  unfold separatorOf
  split
  · exact .inl rfl
  · exact .inr rfl

theorem tally_separator (hs : separator = .semicolon ∨ separator = .comma) (ht : t.kind = separator) (depth : Nat) :
    tally depth t = depth := by
  rcases hs with rfl | rfl <;> simp [tally, ht]

theorem withoutOuter_cons (separator : Token.Kind) (depth : Nat) (t : Token) (ts : List Token) :
    withoutOuter separator depth (t :: ts) =
      if t.kind = separator ∧ depth = 0 then withoutOuter separator (tally depth t) ts
      else t :: withoutOuter separator (tally depth t) ts := by
  have htail : ((ts.zipIdx 1).filter fun p => !isOuter separator depth ((t :: ts).take p.2) p.1).map Prod.fst =
      withoutOuter separator (tally depth t) ts := by
    rw [withoutOuter, List.zipIdx_succ, List.filter_map, List.map_map]
    rfl
  rw [withoutOuter, List.zipIdx_cons, List.filter_cons]
  by_cases ht : t.kind = separator ∧ depth = 0
  · rw [if_neg (by simp [isOuter, ht]), if_pos ht]
    exact htail
  · rw [if_pos (by rw [isOuter, List.take_zero, List.foldl_nil, decide_eq_false ht]; rfl), if_neg ht]
    exact congrArg (t :: ·) htail

theorem withoutOuter_length (separator : Token.Kind) (depth : Nat) (ts : List Token) :
    (withoutOuter separator depth ts).length ≤ ts.length := by
  rw [withoutOuter, List.length_map]
  calc (ts.zipIdx.filter _).length ≤ ts.zipIdx.length := List.length_filter_le _ _
    _ = ts.length := List.length_zipIdx

/-- No token of a whole group is an outer separator. -/
theorem whole_cons (h : withoutOuter separator depth (t :: ts) = t :: ts) :
    ¬(t.kind = separator ∧ depth = 0) ∧ withoutOuter separator (tally depth t) ts = ts := by
  rw [withoutOuter_cons] at h
  split at h
  · -- a row does not get longer
    have hlength := withoutOuter_length separator (tally depth t) ts
    rw [h, List.length_cons] at hlength
    omega
  · next ht => exact ⟨ht, (List.cons.inj h).2⟩

theorem pieces_cons_of_outer (ht : t.kind = separator) :
    pieces separator 0 (t :: ts) = [] :: pieces separator 0 ts := by
  rw [pieces, if_pos ⟨ht, rfl⟩]

theorem flatten_pieces (hs : separator = .semicolon ∨ separator = .comma) (depth : Nat) (ts : List Token) :
    (pieces separator depth ts).flatten = withoutOuter separator depth ts := by
  induction ts generalizing depth with
  | nil => rfl
  | cons t ts ih =>
    rw [withoutOuter_cons]
    split
    · next ht =>
      obtain ⟨hkind, rfl⟩ := ht
      rw [pieces_cons_of_outer hkind, tally_separator hs hkind, ← ih 0]
      rfl
    · next ht =>
      obtain ⟨p, ps, hpieces⟩ := List.exists_cons_of_ne_nil (pieces_ne_nil separator (tally depth t) ts)
      rw [pieces_cons_of_inner ht, ← ih, hpieces]
      rfl

theorem flatten_groups (hs : separator = .semicolon ∨ separator = .comma) (ts : List Token) :
    (groups separator ts).flatten = withoutOuter separator 0 ts := by
  rw [groups, List.flatten_filter_not_isEmpty, flatten_pieces hs]

theorem groups_nil (separator : Token.Kind) : groups separator [] = [] := rfl

/-- Separators in front of a row part nothing. -/
theorem groups_separators (hus : ∀ u ∈ us, u.kind = separator) (ts : List Token) :
    groups separator (us ++ ts) = groups separator ts := by
  induction us with
  | nil => rfl
  | cons u us ih =>
    rw [List.forall_mem_cons] at hus
    rw [List.cons_append, groups, pieces_cons_of_outer hus.1]
    exact ih hus.2

/-- By induction on the group, any number of whose parentheses may already be open. -/
theorem pieces_whole (hwhole : withoutOuter separator depth g = g) (hdepth : g.foldl tally depth = 0)
    (ht : t.kind = separator) (rest : List Token) :
    pieces separator depth (g ++ t :: rest) = g :: pieces separator 0 rest := by
  induction g generalizing depth with
  | nil =>
    obtain rfl : depth = 0 := hdepth
    exact pieces_cons_of_outer ht
  | cons u g ih =>
    obtain ⟨hu, hwhole⟩ := whole_cons hwhole
    rw [List.cons_append, pieces_cons_of_inner hu, ih hwhole hdepth]
    rfl

/-- A group at the end of a row is not cut either. -/
theorem pieces_eq_singleton (hwhole : withoutOuter separator depth g = g) : pieces separator depth g = [g] := by
  induction g generalizing depth with
  | nil => rfl
  | cons u g ih =>
    obtain ⟨hu, hwhole⟩ := whole_cons hwhole
    rw [pieces_cons_of_inner hu, ih hwhole]
    rfl

/-- Where parentheses are paired the count ends with none. -/
theorem foldl_tally {n : Nat} (h : openAfter? depth ts = some n) : ts.foldl tally depth = n := by
  induction ts generalizing depth with
  | nil => exact Option.some.inj h
  | cons t ts ih =>
    obtain ⟨d, hstep, hts⟩ := openAfter?_cons h
    rw [List.foldl_cons, tally_of_openAfter? hstep]
    exact ih hts

namespace IsGroup

theorem isEmpty (h : IsGroup separator g) : g.isEmpty = false := by simp [h.ne_nil]

theorem groups_self (h : IsGroup separator g) : groups separator g = [g] := by
  rw [groups, pieces_eq_singleton h.whole, List.filter_cons_of_pos (by simp [h.isEmpty]), List.filter_nil]

theorem groups_append (h : IsGroup separator g) (ht : t.kind = separator) (hus : ∀ u ∈ us, u.kind = separator)
    (rest : List Token) : groups separator (g ++ (t :: us) ++ rest) = g :: groups separator rest := by
  rw [List.append_assoc, List.cons_append, groups, pieces_whole h.whole (foldl_tally h.paired) ht,
    List.filter_cons_of_pos (by simp [h.isEmpty])]
  exact congrArg (g :: ·) (groups_separators hus rest)

end IsGroup

theorem written_cons (r : List Token × List Token) (rows : List (List Token × List Token)) :
    written (r :: rows) = r.1 ++ r.2 ++ written rows := List.flatMap_cons

/-- Groups that are written with separators between them are read again. The last one needs no separator behind it. -/
theorem groups_written {rows : List (List Token × List Token)} (hgroups : ∀ r ∈ rows, IsGroup separator r.1)
    (hseparators : ∀ r ∈ rows, ∀ t ∈ r.2, t.kind = separator) (hbetween : ∀ r ∈ rows.dropLast, r.2 ≠ []) :
    groups separator (written rows) = rows.map Prod.fst := by
  induction rows with
  | nil => exact groups_nil separator
  | cons r rows ih =>
    rw [List.forall_mem_cons] at hgroups hseparators
    rw [written_cons, List.map_cons]
    obtain ⟨g, us⟩ := r
    cases us with
    | cons u us =>
      obtain ⟨hu, hus⟩ := List.forall_mem_cons.mp hseparators.1
      have hrest : ∀ r ∈ rows.dropLast, r.2 ≠ [] := by
        intro r hr
        refine hbetween r ?_
        cases rows with
        | nil => exact nomatch hr
        | cons r' rows => exact List.mem_cons_of_mem _ hr
      rw [hgroups.1.groups_append hu hus, ih hgroups.2 hseparators.2 hrest]
    | nil =>
      cases rows with
      | nil =>
        rw [List.append_nil, written, List.flatMap_nil, List.append_nil, hgroups.1.groups_self]
        rfl
      | cons r' rows => exact absurd rfl (hbetween (g, []) List.mem_cons_self)

theorem mem_written {rows : List (List Token × List Token)} (ht : t ∈ written rows) :
    ∃ r ∈ rows, t ∈ r.1 ∨ t ∈ r.2 := by
  obtain ⟨r, hr, hmem⟩ := List.mem_flatMap.mp ht
  exact ⟨r, hr, List.mem_append.mp hmem⟩

theorem separatorOf_semicolon (ht : t ∈ ts) (hk : t.kind = .semicolon) : separatorOf ts = .semicolon :=
  if_pos (List.any_eq_true.mpr ⟨t, ht, decide_eq_true hk⟩)

theorem separatorOf_comma (h : ∀ t ∈ ts, t.kind ≠ .semicolon) : separatorOf ts = .comma := by
  refine if_neg fun hany => ?_
  obtain ⟨t, ht, hk⟩ := List.any_eq_true.mp hany
  exact h t ht (of_decide_eq_true hk)

/-- Arguments are not empty, and one behind the other they are the row without its outer separators. Groups with one `;`
or more behind each, and groups without any `;` and with one `,` or more between them, are the arguments of the row that
they make up. -/
theorem arguments_parted :
    (∀ ts, (∀ g ∈ arguments ts, g ≠ []) ∧ (arguments ts).flatten = withoutOuter (separatorOf ts) 0 ts) ∧
      (∀ rows, (∀ r ∈ rows, IsGroup .semicolon r.1) → (∀ r ∈ rows, r.2 ≠ [] ∧ ∀ t ∈ r.2, t.kind = .semicolon) →
        arguments (written rows) = rows.map Prod.fst) ∧
      (∀ rows, (∀ r ∈ rows, IsGroup .comma r.1 ∧ ∀ t ∈ r.1, t.kind ≠ .semicolon) →
        (∀ r ∈ rows, ∀ t ∈ r.2, t.kind = .comma) → (∀ r ∈ rows.dropLast, r.2 ≠ []) →
        arguments (written rows) = rows.map Prod.fst) := by
  refine ⟨fun ts => ⟨fun g hg => ?_, flatten_groups (separatorOf_eq ts) ts⟩, ?_, ?_⟩
  · simpa using (List.mem_filter.mp hg).2
  · intro rows hgroups hseparators
    cases rows with
    | nil => rfl
    | cons r rows =>
      obtain ⟨t, us, hbehind⟩ := List.exists_cons_of_ne_nil (hseparators r List.mem_cons_self).1
      have hmem : t ∈ r.2 := hbehind ▸ List.mem_cons_self
      have hwritten : t ∈ written (r :: rows) :=
        List.mem_flatMap.mpr ⟨r, List.mem_cons_self, List.mem_append_right _ hmem⟩
      rw [arguments_eq_groups, separatorOf_semicolon hwritten ((hseparators r List.mem_cons_self).2 t hmem)]
      exact groups_written hgroups (fun r hr => (hseparators r hr).2)
        fun r hr => (hseparators r (List.dropLast_subset _ hr)).1
  · intro rows hgroups hseparators hbetween
    have hnone : ∀ t ∈ written rows, t.kind ≠ .semicolon := by
      intro t ht
      obtain ⟨r, hr, hmem | hmem⟩ := mem_written ht
      · exact (hgroups r hr).2 t hmem
      · rw [hseparators r hr t hmem]
        decide
    rw [arguments_eq_groups, separatorOf_comma hnone]
    exact groups_written (fun r hr => (hgroups r hr).1) hseparators hbetween

/-- The arguments `f(a; b), c` and `@x: (d;)`, which hold a `;` and a `,` where these part nothing, with `;;` and `;`
behind them, and the arguments `f(a, b)` and `c` with `,,` between them. -/
theorem arguments_parted_nested :
    let row (text : String) : List Token := (Token.ofText text.toList).dropLast
    let semicolons := [(row "f(a; b), c", row ";;"), (row "@x: (d;)", row ";")]
    let commas := [(row "f(a, b)", row ",,"), (row "c", [])]
    ((∀ r ∈ semicolons, IsGroup .semicolon r.1) ∧ (∀ r ∈ semicolons, r.2 ≠ [] ∧ ∀ t ∈ r.2, t.kind = .semicolon) ∧
      arguments (written semicolons) = [row "f(a; b), c", row "@x: (d;)"]) ∧
    (∀ r ∈ commas, IsGroup .comma r.1 ∧ ∀ t ∈ r.1, t.kind ≠ .semicolon) ∧ (∀ r ∈ commas, ∀ t ∈ r.2, t.kind = .comma) ∧
      (∀ r ∈ commas.dropLast, r.2 ≠ []) ∧ arguments (written commas) = [row "f(a, b)", row "c"] := by
  intro row semicolons commas
  have hgroups : ∀ r ∈ semicolons, IsGroup .semicolon r.1 := by decide +kernel
  have hbehind : ∀ r ∈ semicolons, r.2 ≠ [] ∧ ∀ t ∈ r.2, t.kind = .semicolon := by decide +kernel
  have hinner : ∀ r ∈ commas, IsGroup .comma r.1 ∧ ∀ t ∈ r.1, t.kind ≠ .semicolon := by decide +kernel
  have hcommas : ∀ r ∈ commas, ∀ t ∈ r.2, t.kind = .comma := by decide +kernel
  have hbetween : ∀ r ∈ commas.dropLast, r.2 ≠ [] := by decide +kernel
  exact ⟨⟨hgroups, hbehind, arguments_parted.2.1 semicolons hgroups hbehind⟩, hinner, hcommas, hbetween,
    arguments_parted.2.2 commas hinner hcommas hbetween⟩

end LessCss.Tokens
