import LessCss.Proofs.Sheet.Items
/-!
What the readers of a sheet blame, and where the parts of a sheet stand.

Every fault that the readers report has the place of a token of the row, if it has one (`Sheet.ofTokens_placed`). In
a sheet that is read, every value is a row of these tokens, and every call has the place of the token that begins it
(`Tokens.findsOn_row`).
-/
namespace LessCss

/-- The faults of the readers of items. -/
def Fault.ofItem : Fault → Bool
  | unexpectedClose | missingClose | blocksTooDeep | declarationOutsideRule | invalidVariable _ | emptySelector
  | missingSelector | unexpectedInSelector _ | unexpectedInBlock _ | missingProperty _ | missingColon _ | missingValue _
  | unterminatedString | parameterNotVariable | missingDefault _ | unexpectedInParameters _ => true
  | _ => false

/-- A diagnostic has no place, or that of a token of the row. -/
def Diagnostic.PlacedIn (ts : List Token) (d : Diagnostic) : Prop :=
  ∀ p, d.position = some p → ∃ t ∈ ts, t.position = p

/-- A diagnostic of the readers of items, blamed on a token of the row if on any. -/
structure Diagnostic.Refuses (ts : List Token) (d : Diagnostic) : Prop where
  fault : d.fault.ofItem = true
  placed : d.PlacedIn ts

theorem Diagnostic.Refuses.mono {d : Diagnostic} {ts us : List Token} (h : d.Refuses ts) (hts : ts ⊆ us) :
    d.Refuses us := by
  refine ⟨h.fault, fun p hp => ?_⟩
  obtain ⟨t, ht, rfl⟩ := h.placed p hp
  exact ⟨t, hts ht, rfl⟩

theorem Fault.refuses {f : Fault} {t : Token} {ts : List Token} (hf : f.ofItem = true) (ht : t ∈ ts) :
    (f.blame t.position).Refuses ts := by
  refine ⟨hf, ?_⟩
  rintro p ⟨⟩
  exact ⟨t, ht, rfl⟩

theorem Ends.refuses_mono {α : Type} {P : α → Prop} {e : Except Diagnostic α} {ts us : List Token}
    (h : Ends P (·.Refuses ts) e) (hts : ts ⊆ us) : Ends P (·.Refuses us) e :=
  h.mono_error fun _ hd => hd.mono hts

/-- A row of tokens of another row, at least one. -/
def Tokens.Within (ts value : List Token) : Prop := value ≠ [] ∧ value ⊆ ts

theorem Tokens.Within.mono {ts us value : List Token} (h : Within ts value) (hts : ts ⊆ us) : Within us value :=
  ⟨h.1, fun _ ht => hts (h.2 ht)⟩

/-- What is asked of the values and the calls in a sheet. -/
def Criterion.values (V : List Token → Prop) (K : Call → Prop) : Criterion where
  header
    | .mixin _ params => ∀ p ∈ params, ∀ v ∈ p.fallback, V v
    | _ => True
  definition d := V d.value
  call c := K c ∧ ∀ v ∈ c.args, V v
  declaration d := V d.value

namespace Tokens

open Token (Ended ended_cons not_ended_nil)

variable {t : Token} {ts us rest : List Token}

theorem next_mem (h : Ended ts) : next ts ∈ ts := by
  cases ts with
  | nil => exact absurd h not_ended_nil
  | cons t ts => exact List.mem_cons_self

theorem ended_tail (h : Ended ts) (hk : (next ts).kind ≠ .eof) : Ended ts.tail := by
  cases ts with
  | nil => exact absurd h not_ended_nil
  | cons t ts => exact (ended_cons.mp h).elim (fun heof => absurd heof.1 hk) And.right

theorem ended_of_not_endsArguments (h : Ended (t :: ts)) (ht : ¬endsArguments t = true) : Ended ts :=
  ended_tail h (endsArguments_eq_false_iff.mp (eq_false_of_ne_true ht)).2

theorem readValue_ends (ts : List Token) :
    Ends (fun p => p.1 ++ p.2 = ts ∧ ∀ t ∈ p.1, t.kind ≠ .unterminated) (·.Refuses ts) (readValue ts) := by
  unfold readValue
  dsimp only
  split
  · next t ht =>
    exact Fault.refuses rfl ((List.takeWhile_prefix _).subset (List.mem_of_find?_eq_some ht))
  · next hnone =>
    refine ⟨List.takeWhile_append_dropWhile, ?_⟩
    simpa using List.find?_eq_none.mp hnone

/-- What follows a value, of which there is at least the end of the text. -/
theorem ended_of_readValue {value : List Token} (hts : Ended ts) (h : readValue ts = .ok (value, rest)) :
    Ended rest := by
  have hgives := readValue_gives ts
  rw [h] at hgives
  exact SameBlock.ended hgives hts

theorem readDefinition_placed (t : Token) (hts : Ended ts) :
    Ends (fun p => Within ts p.1.value) (·.Refuses ts) (readDefinition t ts) := by
  refine (readValue_ends ts).bind ?_
  rintro ⟨value, rest⟩ hread ⟨happend, -⟩
  have hrest := ended_of_readValue hts hread
  dsimp only at happend ⊢
  subst happend
  split
  · exact Fault.refuses rfl (List.mem_append_right _ (next_mem hrest))
  · next hne => exact ⟨fun hnil => hne (.inl (List.isEmpty_iff.mpr hnil)), List.subset_append_left _ _⟩

theorem readDeclaration_placed (hts : Ended ts) :
    Ends (fun p => Within ts p.1.value) (·.Refuses ts) (readDeclaration ts) := by
  unfold readDeclaration
  dsimp only
  split
  · exact Fault.refuses rfl (next_mem hts)
  · next hname =>
    have htail := ended_tail hts (by rw [Decidable.not_not.mp hname]; decide)
    have hsub : ts.tail ⊆ ts := (List.tail_suffix ts).subset
    split
    · exact Fault.refuses rfl (hsub (next_mem htail))
    · next hcolon =>
      have hvalue := ended_tail htail (by rw [Decidable.not_not.mp hcolon]; decide)
      have hsub : ts.tail.tail ⊆ ts := fun _ hu => hsub (List.mem_of_mem_tail hu)
      refine ((readValue_ends ts.tail.tail).refuses_mono hsub).bind ?_
      rintro ⟨value, rest⟩ hread ⟨happend, -⟩
      have hrest := ended_of_readValue hvalue hread
      dsimp only at happend ⊢
      split
      · refine Fault.refuses rfl (hsub ?_)
        rw [← happend]
        exact List.mem_append_right _ (next_mem hrest)
      · next hne =>
        refine ⟨fun hnil => hne (List.isEmpty_iff.mpr hnil), fun u hu => hsub ?_⟩
        rw [← happend]
        exact List.mem_append_left _ ((isPrefix_takeImportant value).subset hu)

theorem readDirective_placed (t : Token) (ts : List Token) :
    Ends (fun _ => True) (·.Refuses ts) (readDirective t ts) :=
  (readValue_ends ts).bind fun _ _ _ => trivial

theorem readSelectors_placed (group : List Token) (hts : Ended ts) :
    Ends (fun _ => True) (·.Refuses ts) (readSelectors group ts) := by
  fun_induction readSelectors group ts with
  | case1 => exact absurd hts not_ended_nil
  | case2 | case4 | case6 | case7 | case8 | case9 | case10 | case11 | case12 =>
    exact Fault.refuses rfl List.mem_cons_self
  | case3 => trivial
  | case5 group t ts hk hg ih =>
    have htail : Ended ts := ended_tail hts (by rw [next_cons, hk]; decide)
    exact ((ih htail).refuses_mono (List.subset_cons_self t ts)).bind fun _ _ _ => trivial
  | case13 group t ts _ _ _ _ _ _ _ _ heof ih =>
    have htail : Ended ts := ended_tail hts heof
    exact (ih htail).refuses_mono (List.subset_cons_self t ts)

theorem parameter_placed (hne : ts ≠ []) :
    Ends (fun p => ∀ v ∈ p.fallback, Within ts v) (·.Refuses ts) (Signature.parameter ts) := by
  obtain ⟨t, ts, rfl⟩ := List.exists_cons_of_ne_nil hne
  unfold Signature.parameter
  dsimp only [next_cons, List.tail_cons]
  split
  · exact Fault.refuses rfl List.mem_cons_self
  · split
    · rintro v ⟨⟩
    · next c fallback =>
      split
      · exact Fault.refuses rfl (.tail _ List.mem_cons_self)
      · split
        · exact Fault.refuses rfl (.tail _ List.mem_cons_self)
        · next hne =>
          rintro v ⟨⟩
          exact ⟨fun hnil => hne (List.isEmpty_iff.mpr hnil), fun u hu => .tail _ (.tail _ hu)⟩

/-- The arguments between the parentheses of a mixin. -/
theorem argumentList_within {s : Signature} (h : Signature.read? ts = some s) :
    ∀ a ∈ s.argumentList, Within ts a := by
  intro a ha
  have hne : a ≠ [] := by
    rintro rfl
    exact nomatch (List.mem_filter.mp ha).2
  refine ⟨hne, fun u hu => ?_⟩
  have hmem : u ∈ s.args.getD [] := mem_of_mem_arguments ha hu
  cases Written.spells_of_read? h with
  | name => exact nomatch hmem
  | opening => exact List.mem_append_right _ (List.mem_append_left _ hmem)

theorem ruleHeader?_placed (hts : Ended ts) : Ends (fun _ => True) (·.Refuses ts) (ruleHeader? ts) := by
  unfold ruleHeader?
  split
  · exact (readSelectors_placed [] hts).map fun _ _ => trivial
  · trivial

theorem lead?_placed (hts : Ended ts) : Ends (fun _ => True) (·.Refuses ts) (lead? ts) := by
  unfold lead?
  dsimp only
  split
  · next hk =>
    have htail := ended_tail hts (by rw [hk]; decide)
    split
    · next hcolon =>
      have hvalue := ended_tail htail (by rw [hcolon]; decide)
      have hsub : ts.tail.tail ⊆ ts := fun _ hu => List.mem_of_mem_tail (List.mem_of_mem_tail hu)
      exact ((readDefinition_placed (next ts) hvalue).refuses_mono hsub).map fun _ _ => trivial
    · split <;> trivial
  · split
    · exact ruleHeader?_placed hts
    · next s hs =>
      split
      · have hparams : ∀ a ∈ s.argumentList, Ends (fun _ => True) (·.Refuses ts) (Signature.parameter a) := by
          intro a ha
          have hwithin := argumentList_within hs a ha
          exact ((parameter_placed hwithin.1).refuses_mono hwithin.2).mono_ok fun _ _ => trivial
        exact (Ends.mapM hparams).map fun _ _ => trivial
      · split
        · trivial
        · exact ruleHeader?_placed hts

theorem opened_name {name : Text} {s : Signature} (h : Signature.opened name ts = some s) : s.name = name := by
  obtain ⟨p, -, rfl⟩ := Option.map_eq_some_iff.mp h
  rfl

theorem named_name {name : Text} {s : Signature} (h : Signature.named name ts = some s) : s.name = name := by
  cases ts with
  | nil =>
    obtain rfl := Option.some.inj h
    rfl
  | cons t ts =>
    rw [Signature.named] at h
    split at h
    · exact opened_name h
    · obtain rfl := Option.some.inj h
      rfl

/-- A signature begins with the `.` of its name, or with a hash that is its name. -/
theorem read?_first {s : Signature} (h : Signature.read? (t :: ts) = some s) :
    (t.isDelim '.' = true ∧ s.name.head? = some '.') ∨ (t.kind = .hash ∧ s.name = t.text) := by
  rw [Signature.read?] at h
  split at h
  · next hd =>
    refine .inl ⟨hd, ?_⟩
    dsimp only at h
    split at h
    · cases h
    · split at h
      · rw [named_name h]
        rfl
      · rw [opened_name h]
        rfl
      · cases h
  · split at h
    · next hk => exact .inr ⟨hk, named_name h⟩
    · cases h

/-- The token `t` with the tokens `after` behind it begins a call of a mixin, where an item is looked for. -/
structure BeginsCall (ts : List Token) (name : Text) (t : Token) (after : List Token) : Prop where
  visited : Visits ts (t :: after)
  first : (t.isDelim '.' = true ∧ name.head? = some '.') ∨ (t.kind = .hash ∧ name = t.text)
  called : ∃ c rest, lead? (t :: after) = .ok (some (.call c, rest)) ∧ c.name = name

/-- A call has the place of the token that begins it. -/
def CallIn (ts : List Token) (c : Call) : Prop :=
  ∃ t after, BeginsCall ts c.name t after ∧ c.position = t.position

/-- In what is read from a row every value is within the row, and every call begins with a token of it. -/
theorem findsOn_row (hts : Ended ts) : FindsOn (.values (Within ts) (CallIn ts)) ts where
  header us h inside hus hlead := by
    cases us with
    | nil => exact nomatch hlead
    | cons t us =>
      cases leadsTo_of_lead? hlead with
      | atRule | rule => trivial
      | @mixin s params hk hread hs hparams =>
        have hfallbacks : ∀ a ∈ s.argumentList,
            Ends (fun p : Parameter => ∀ v ∈ p.fallback, Within (t :: us) v) (·.Refuses (t :: us))
              (Signature.parameter a) := by
          intro a ha
          have hwithin := argumentList_within hread a ha
          exact ((parameter_placed hwithin.1).refuses_mono hwithin.2).mono_ok fun p hp v hv => (hp v hv).mono hwithin.2
        intro p hp v hv
        exact ((Ends.mapM hfallbacks).of_ok hparams p hp v hv).mono hus.suffix.subset
  definition us d rest hus hlead := by
    cases us with
    | nil => exact nomatch hlead
    | cons t us =>
      cases leadsTo_of_lead? hlead with
      | definition hk hcolon hread =>
        have htail := ended_tail (hus.ended hts) (by rw [next_cons, hk]; decide)
        have hvalue := ended_tail htail (by rw [List.tail_cons, hcolon]; decide)
        refine ((readDefinition_placed t hvalue).of_ok hread).mono fun u hu => ?_
        exact hus.suffix.subset (.tail _ (List.mem_of_mem_tail hu))
  call us c rest hus hlead := by
    cases us with
    | nil => exact nomatch hlead
    | cons t us =>
      cases leadsTo_of_lead? hlead with
      | @call s hk hread hs =>
        refine ⟨⟨t, us, ⟨hus, read?_first hread, _, _, hlead, rfl⟩, rfl⟩, fun v hv => ?_⟩
        exact (argumentList_within hread v hv).mono hus.suffix.subset
  declaration us d rest hus _ hread :=
    ((readDeclaration_placed (hus.ended hts)).of_ok hread).mono hus.suffix.subset
  directive _ _ _ _ _ _ _ _ := trivial

theorem reportsOn_row (hts : Ended ts) : ReportsOn (·.Refuses ts) ts where
  lead _ _ hus h := ((lead?_placed (hus.ended hts)).of_error h).mono hus.suffix.subset
  declaration _ _ hus h := ((readDeclaration_placed (hus.ended hts)).of_error h).mono hus.suffix.subset
  directive t us _ hus h :=
    ((readDirective_placed t us).of_error h).mono fun _ hu => hus.suffix.subset (.tail _ hu)
  keyword _ _ hus := Fault.refuses rfl (hus.suffix.subset List.mem_cons_self)
  outside _ _ hus := Fault.refuses rfl (hus.suffix.subset List.mem_cons_self)
  unclosed := ⟨rfl, nofun⟩

end Tokens

namespace Braces

variable {ts : List Token} {d : Diagnostic}

theorem unpaired?_placed {opened : Nat} (h : unpaired? opened ts = some d) :
    d.Refuses ts := by
  induction ts generalizing opened with
  | nil =>
    rw [unpaired?] at h
    split at h
    · cases h
    · obtain rfl := Option.some.inj h
      exact ⟨rfl, by rintro p ⟨⟩⟩
  | cons t ts ih =>
    have hgo : ∀ {n : Nat}, unpaired? n ts = some d → d.Refuses (t :: ts) :=
      fun h => (ih h).mono (List.subset_cons_self t ts)
    rw [unpaired?] at h
    split at h
    · exact hgo h
    · split at h
      · obtain rfl := Option.some.inj h
        exact Fault.refuses rfl List.mem_cons_self
      · exact hgo h
    · exact hgo h

theorem tooDeep?_placed {opened : Nat} (h : tooDeep? opened ts = some d) :
    d.Refuses ts := by
  induction ts generalizing opened with
  | nil => exact nomatch h
  | cons t ts ih =>
    have hgo : ∀ {n : Nat}, tooDeep? n ts = some d → d.Refuses (t :: ts) :=
      fun h => (ih h).mono (List.subset_cons_self t ts)
    rw [tooDeep?] at h
    split at h
    · split at h
      · obtain rfl := Option.some.inj h
        exact Fault.refuses rfl List.mem_cons_self
      · exact hgo h
    · exact hgo h
    · exact hgo h

end Braces

variable {ts : List Token}

/-- A row of tokens is refused by the readers of items, with the place of one of its tokens, if with any. -/
theorem Sheet.ofTokens_placed (hts : Token.Ended ts) :
    Ends (∀ x ∈ ·, x.Meets (.values (Tokens.Within ts) (Tokens.CallIn ts))) (·.Refuses ts) (ofTokens ts) := by
  unfold ofTokens
  split
  · next d hd =>
    cases hunpaired : Braces.unpaired? 0 ts with
    | some e =>
      obtain rfl : e = d := by simpa [Braces.fault?, hunpaired] using hd
      exact Braces.unpaired?_placed hunpaired
    | none =>
      have hdeep : Braces.tooDeep? 0 ts = some d := by simpa [Braces.fault?, hunpaired] using hd
      exact Braces.tooDeep?_placed hdeep
  · exact (Tokens.readStatements_ends (Tokens.findsOn_row hts) (Tokens.reportsOn_row hts) .refl).mono_ok
      fun _ hs => hs.1

end LessCss
