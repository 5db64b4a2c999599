import LessCss.Proofs.Sheet.Extensions
import LessCss.Proofs.Sheet.Selectors
/-!
Where the lookaheads of the readers come to an end.

Each of them goes on from one token to the next until it meets a token that ends it, and `eof` ends all of them. So in
a row that ends with its only `eof` each comes to an end in the row (`Token.Ended.stops`), and what is found stands
between places of the row (`Tokens.lookaheads`).
-/
namespace LessCss

open Token (Ended ended_cons not_ended_nil)

namespace Tokens

variable {t : Token} {ts us : List Token} {i : Nat}

/-- The place of the first `eof`. -/
def eofIndex (ts : List Token) : Nat := ts.findIdx (·.kind = .eof)

theorem eofIndex_succ (hts : Ended ts) : eofIndex ts + 1 = ts.length := by
  obtain ⟨body, last, rfl, hbody, hlast⟩ := hts
  have hnone : body.findIdx (·.kind = .eof) = body.length :=
    List.findIdx_eq_length_of_false fun t ht => decide_eq_false (hbody t ht)
  rw [eofIndex, List.findIdx_append, hnone, if_neg (Nat.lt_irrefl _), List.findIdx_cons, decide_eq_true hlast]
  simp

theorem kind_of_eofIndex (h : ts[eofIndex ts]? = some t) : t.kind = .eof := by
  obtain ⟨hlt, rfl⟩ := List.getElem?_eq_some_iff.mp h
  exact of_decide_eq_true (List.findIdx_getElem (w := hlt))

theorem ended_drop (hts : Ended ts) (hi : i ≤ eofIndex ts) : Ended (ts.drop i) := by
  have hlen := eofIndex_succ hts
  obtain ⟨body, last, rfl, hbody, hlast⟩ := hts
  rw [List.length_append, List.length_singleton, Nat.add_right_cancel_iff] at hlen
  rw [List.drop_append_of_le_length (hlen ▸ hi)]
  exact ⟨body.drop i, last, rfl, fun t ht => hbody t (List.mem_of_mem_drop ht), hlast⟩

/-- A place of a row behind which the row goes on is not behind `eof`. -/
theorem le_eofIndex (hts : Ended ts) {j : Nat} (hj : j < ts.length) : j ≤ eofIndex ts := by
  have := eofIndex_succ hts
  omega

/-- What is left of a row begins at a place of it. -/
theorem exists_place (hts : Ended ts) (h : us <:+ ts) (hus : Ended us) : ∃ i, i ≤ eofIndex ts ∧ us = ts.drop i := by
  obtain ⟨t, rest, rfl⟩ := exists_cons_of_ended hus
  have hlen := h.length_le
  rw [List.length_cons] at hlen
  exact ⟨_, le_eofIndex hts (by rw [List.length_cons]; omega), List.suffix_iff_eq_drop.mp h⟩

/-- Where the parts of a row stand that begin at `i`. -/
theorem placed_of_drop {before after : List Token} (h : ts.drop i = before ++ t :: after) :
    let j := i + before.length
    ts[j]? = some t ∧ ts.extract i j = before ∧ ts.drop j = t :: after ∧ ts.drop (j + 1) = after ∧ j < ts.length := by
  intro j
  have hj : ts.drop j = t :: after := by
    rw [← List.drop_drop, h, List.drop_left]
  refine ⟨?_, ?_, hj, ?_, ?_⟩
  · rw [← List.head?_drop, hj]
    rfl
  · rw [List.extract_eq_take_drop, h, Nat.add_sub_cancel_left, List.take_left]
  · rw [← List.drop_drop, hj]
    rfl
  · by_contra hle
    rw [List.drop_eq_nil_of_le (Nat.not_lt.mp hle)] at hj
    exact nomatch hj

theorem drop_split {j : Nat} (hij : i ≤ j) (hj : ts[j]? = some t) :
    ts.drop i = ts.extract i j ++ t :: ts.drop (j + 1) := by
  obtain ⟨hlt, rfl⟩ := List.getElem?_eq_some_iff.mp hj
  have hdrop : ts.drop j = (ts.drop i).drop (j - i) := by rw [List.drop_drop, Nat.add_sub_cancel' hij]
  rw [← List.drop_eq_getElem_cons hlt, List.extract_eq_take_drop, hdrop, List.take_append_drop]

/-- From the token at `i` on, `p` holds first of `t`, which stands at `j`. -/
structure StopsAt (p : Token → Bool) (ts : List Token) (i j : Nat) (t : Token) : Prop where
  le : i ≤ j
  found : ts[j]? = some t
  stops : p t = true
  passes : ∀ u ∈ ts.extract i j, p u = false

/-- The search for what ends a value, from `i` to `t` at `j`: a `{` comes first exactly if it ends there, and a value is
read up to there. -/
structure StopSearch (ts : List Token) (i j : Nat) (t : Token) : Prop extends StopsAt isStop ts i j t where
  opens : opensBlock (ts.drop i) = decide (t.kind = .lbrace)
  value : Ends (· = (ts.extract i j, ts.drop j))
    (fun d => ∃ u ∈ ts.extract i j, u.kind = .unterminated ∧ d = Fault.unterminatedString.blame u.position)
    (readValue (ts.drop i))

theorem stopSearch (hts : Ended ts) (hi : i ≤ eofIndex ts) : ∃ j t, StopSearch ts i j t ∧ j ≤ eofIndex ts := by
  obtain ⟨before, t, after, hdrop, hbefore, ht⟩ := (ended_drop hts hi).stops fun _ => isStop_eof
  obtain ⟨hfound, hextract, hrest, -, hlt⟩ := placed_of_drop hdrop
  refine ⟨_, t, ⟨⟨Nat.le_add_right i before.length, hfound, ht, hextract.symm ▸ hbefore⟩, ?_, ?_⟩,
    le_eofIndex hts hlt⟩
  · rw [hdrop, opensBlock_append hbefore ht]
  · rw [hextract, hrest, hdrop, readValue_stop hbefore ht]
    cases hunterminated : before.find? (·.kind = .unterminated) with
    | none => rfl
    | some u =>
      have hkind : u.kind = .unterminated := by simpa using List.find?_some hunterminated
      exact ⟨u, List.mem_of_find?_eq_some hunterminated, hkind, rfl⟩

/-- The header of an at-rule whose keyword stands at `i` is read up to the `{` at `j`, which is known to come. -/
theorem StopSearch.atHeader {keyword : Token} {j : Nat} (h : StopSearch ts (i + 1) j t) (ht : t.kind = .lbrace) :
    StopsAt (·.kind = .lbrace) ts (i + 1) j t ∧ readAtHeader keyword (ts.drop (i + 1)) =
      (.atRule keyword.name (Token.join (ts.extract (i + 1) j)), ts.drop (j + 1)) := by
  have hpasses : ∀ u ∈ ts.extract (i + 1) j, decide (u.kind = .lbrace) = false := by
    intro u hu
    have hstop := h.passes u hu
    simp only [isStop, decide_eq_false_iff_not, not_or] at hstop
    exact decide_eq_false hstop.1
  refine ⟨⟨h.le, h.found, decide_eq_true ht, hpasses⟩, ?_⟩
  rw [drop_split h.le h.found, readAtHeader_append h.passes ht]

/-- The search for the parenthesis that closes the one before `i`. -/
inductive ParenSearch (ts : List Token) (i j : Nat) : Prop
  | closed {t : Token} (found : ts[j]? = some t) (close : t.kind = .rparen)
      (passes : depthAfter? endsArguments 0 (ts.extract i j) = some 0)
      (result : closeParen? endsArguments 0 (ts.drop i) = some (ts.extract i j, ts.drop (j + 1)))
  | barred {t : Token} {depth : Nat} (found : ts[j]? = some t) (barrier : endsArguments t = true)
      (passes : depthAfter? endsArguments 0 (ts.extract i j) = some depth)
      (result : closeParen? endsArguments 0 (ts.drop i) = none)

theorem closeParen?_eq_none {depth : Nat} (hts : Ended ts) (h : closeParen? endsArguments depth ts = none) :
    ∃ before t after d, ts = before ++ t :: after ∧ endsArguments t = true ∧
      depthAfter? endsArguments depth before = some d := by
  fun_induction closeParen? endsArguments depth ts with
  | case1 => exact absurd hts not_ended_nil
  | case2 depth t us hb => exact ⟨[], t, us, depth, rfl, hb, rfl⟩
  | case3 => cases h
  | case4 t us hb d hk ih | case5 t us hb d hk ih | case6 t us hb d hk ih =>
    obtain ⟨before, u, after, e, rfl, hu, hd⟩ := ih (ended_of_not_endsArguments hts hb) (Option.map_eq_none_iff.mp h)
    exact ⟨t :: before, u, after, e, rfl, hu, by simp [depthAfter?, hb, hk, hd]⟩
  | case7 t us hb d h₁ h₂ h₃ h₄ ih =>
    obtain ⟨before, u, after, e, rfl, hu, hd⟩ := ih (ended_of_not_endsArguments hts hb) (Option.map_eq_none_iff.mp h)
    exact ⟨t :: before, u, after, e, rfl, hu, by simp [depthAfter?, hb, hd]⟩

theorem parenSearch (hts : Ended ts) (hi : i ≤ eofIndex ts) : ∃ j, ParenSearch ts i j ∧ i ≤ j ∧ j ≤ eofIndex ts := by
  cases hfound : closeParen? endsArguments 0 (ts.drop i) with
  | some p =>
    obtain ⟨inner, rest⟩ := p
    obtain ⟨close, hk, hdrop, hpasses⟩ := closeParen?_eq_some hfound
    obtain ⟨hclose, hextract, -, hrest, hlt⟩ := placed_of_drop hdrop
    refine ⟨i + inner.length, .closed hclose hk ?_ ?_, Nat.le_add_right i _, le_eofIndex hts hlt⟩
    · rw [hextract, hpasses]
    · rw [hextract, hrest, hfound]
  | none =>
    obtain ⟨before, t, after, d, hdrop, ht, hpasses⟩ := closeParen?_eq_none (ended_drop hts hi) hfound
    obtain ⟨hbarrier, hextract, -, -, hlt⟩ := placed_of_drop hdrop
    exact ⟨i + before.length, .barred hbarrier ht (hextract.symm ▸ hpasses) hfound, Nat.le_add_right i _,
      le_eofIndex hts hlt⟩

/-- Where a signature stands that is read at `i`: the tokens after it begin at `after`, and its arguments stand between
two places before. No group of its arguments is empty. -/
structure SignatureAt (ts : List Token) (i : Nat) (s : Signature) (after : Nat) : Prop where
  rest : s.rest = ts.drop after
  lt : i < after
  le : after ≤ eofIndex ts
  args : ∀ args, s.args = some args → ∃ start stop, args = ts.extract start stop ∧ i < start ∧ start ≤ stop ∧
    stop < after
  groups : ∀ g ∈ s.argumentList, g ≠ []

theorem ne_nil_of_mem_arguments {g : List Token} (hg : g ∈ arguments ts) : g ≠ [] := by
  simpa using (List.mem_filter.mp hg).2

theorem Name.length_pos (n : Written.Name) : 0 < n.tokens.length := by
  cases n <;> exact Nat.succ_pos _

theorem Opening.length_pos (o : Written.Opening) : 0 < o.tokens.length := by
  cases o with
  | paren name lparen => simp [Written.Opening.tokens]
  | function dot word => exact Nat.succ_pos _

theorem signatureAt (hts : Ended ts) (hi : i ≤ eofIndex ts) {s : Signature}
    (h : Signature.read? (ts.drop i) = some s) : ∃ after, SignatureAt ts i s after := by
  -- the row goes on after a signature, at least with `eof`
  have hafter : ∀ {k : Nat}, s.rest = ts.drop k → k ≤ eofIndex ts := by
    intro k hk
    have hended : Ended s.rest := (sameBlock_of_read? h).ended (ended_drop hts hi)
    apply le_eofIndex hts
    by_contra hle
    rw [hk, List.drop_eq_nil_of_le (Nat.not_lt.mp hle)] at hended
    exact not_ended_nil hended
  have hgroups : ∀ g ∈ s.argumentList, g ≠ [] := fun g => ne_nil_of_mem_arguments
  generalize hdrop : ts.drop i = us at h
  cases Written.spells_of_read? h with
  | name n rest =>
    have hrest : rest = ts.drop (i + n.tokens.length) := by rw [← List.drop_drop, hdrop, List.drop_left]
    exact ⟨_, hrest, Nat.lt_add_of_pos_right (Name.length_pos n), hafter hrest, nofun, hgroups⟩
  | opening o args close rest =>
    have hopened : ts.drop (i + o.tokens.length) = args ++ close.1 :: rest := by
      rw [← List.drop_drop, hdrop, List.drop_left]
    obtain ⟨-, hargs, -, hrest, -⟩ := placed_of_drop hopened
    have hpos := Opening.length_pos o
    refine ⟨_, hrest.symm, by omega, hafter hrest.symm, ?_, hgroups⟩
    rintro _ ⟨⟩
    exact ⟨_, _, hargs.symm, Nat.lt_add_of_pos_right hpos, Nat.le_add_right _ _, Nat.lt_succ_self _⟩

/-- The loop that reads selectors goes from `i` to `t` at `j`: it returns them at a `{`, and else blames `t`. -/
structure SelectorSearch (ts : List Token) (i j : Nat) (t : Token) : Prop where
  le : i ≤ j
  found : ts[j]? = some t
  passes : ∀ u ∈ ts.extract i j, u.kind = .comma ∨ Written.inSelector u = true
  result : Ends (fun p => t.kind = .lbrace ∧ p.2 = ts.drop (j + 1)) (·.position = some t.position)
    (readSelectors [] (ts.drop i))

theorem readSelectors_stops (group : List Token) (hts : Ended ts) :
    ∃ before t after, ts = before ++ t :: after ∧ (∀ u ∈ before, u.kind = .comma ∨ Written.inSelector u = true) ∧
      Ends (fun p => t.kind = .lbrace ∧ p.2 = after) (·.position = some t.position) (readSelectors group ts) := by
  fun_induction readSelectors group ts with
  | case1 => exact absurd hts not_ended_nil
  | case2 group t ts | case4 group t ts | case6 group t ts | case7 group t ts | case8 group t ts | case9 group t ts
  | case10 group t ts | case11 group t ts | case12 group t ts =>
    exact ⟨[], t, ts, rfl, List.forall_mem_nil _, rfl⟩
  | case3 group t ts hk hg => exact ⟨[], t, ts, rfl, List.forall_mem_nil _, hk, rfl⟩
  | case5 group t ts hk hg ih =>
    obtain ⟨before, u, after, rfl, hbefore, hresult⟩ := ih (ended_tail hts (by simp [hk]))
    refine ⟨t :: before, u, after, rfl, List.forall_mem_cons.mpr ⟨.inl hk, hbefore⟩, ?_⟩
    exact hresult.bind fun p _ hp => hp
  | case13 group t ts _ _ _ _ _ _ _ _ _ ih =>
    have hin : Written.inSelector t = true := by
      unfold Written.inSelector
      split <;> simp_all
    obtain ⟨before, u, after, rfl, hbefore, hresult⟩ := ih (ended_tail hts (by assumption))
    exact ⟨t :: before, u, after, rfl, List.forall_mem_cons.mpr ⟨.inr hin, hbefore⟩, hresult⟩

theorem selectorSearch (hts : Ended ts) (hi : i ≤ eofIndex ts) :
    ∃ j t, SelectorSearch ts i j t ∧ j ≤ eofIndex ts := by
  obtain ⟨before, t, after, hdrop, hbefore, hresult⟩ := readSelectors_stops [] (ended_drop hts hi)
  obtain ⟨hfound, hextract, -, hrest, hlt⟩ := placed_of_drop hdrop
  exact ⟨_, t, ⟨Nat.le_add_right i before.length, hfound, hextract.symm ▸ hbefore, hrest.symm ▸ hresult⟩,
    le_eofIndex hts hlt⟩

/-- What is looked for from a place on is found or missed at `eof` or before. -/
structure Lookaheads (ts : List Token) (i : Nat) : Prop where
  body : ∃ j t, StopSearch ts i j t ∧ j ≤ eofIndex ts
  atRule : ∀ keyword, ts[i]? = some keyword → keyword.kind = .atKeyword →
    ∃ j t, StopSearch ts (i + 1) j t ∧ j ≤ eofIndex ts ∧ (t.kind = .lbrace →
      StopsAt (·.kind = .lbrace) ts (i + 1) j t ∧ readAtHeader keyword (ts.drop (i + 1)) =
        (.atRule keyword.name (Token.join (ts.extract (i + 1) j)), ts.drop (j + 1)))
  paren : ∃ j, ParenSearch ts i j ∧ i ≤ j ∧ j ≤ eofIndex ts
  signature : ∀ s, Signature.read? (ts.drop i) = some s → ∃ after, SignatureAt ts i s after
  within : ∀ more, Signature.read? (ts.drop i ++ more) = (Signature.read? (ts.drop i)).map (.extend more)
  selectors : ∃ j t, SelectorSearch ts i j t ∧ j ≤ eofIndex ts

theorem lookaheads (hts : Ended ts) (hi : i ≤ eofIndex ts) : Lookaheads ts i where
  body := stopSearch hts hi
  atRule keyword hkeyword hk := by
    -- the keyword is not `eof`, so a token comes after it
    have hne : i ≠ eofIndex ts := by
      rintro rfl
      simp [kind_of_eofIndex hkeyword] at hk
    have hnext : i + 1 ≤ eofIndex ts := Nat.lt_of_le_of_ne hi hne
    obtain ⟨j, t, hsearch, hj⟩ := stopSearch hts hnext
    exact ⟨j, t, hsearch, hj, hsearch.atHeader⟩
  paren := parenSearch hts hi
  signature s hs := signatureAt hts hi hs
  within more := Signature.read?_extend (ended_drop hts hi)
  selectors := selectorSearch hts hi

end Tokens
end LessCss
