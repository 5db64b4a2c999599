import Mathlib.Logic.Relation
import LessCss.Proofs.Outcome
import LessCss.Proofs.Sheet.Faults
/-!
What holds of everything that is read.

A `Criterion` says something of each construct a sheet is made of. If whatever the readers find in a row of tokens
meets it, so does the sheet that is read from the row (`Sheet.meets_of_ofTokens`).
-/
namespace LessCss

/-- What is asked of the constructs of a sheet. -/
structure Criterion where
  header : Header → Prop := fun _ => True
  definition : Definition → Prop := fun _ => True
  call : Call → Prop := fun _ => True
  declaration : Declaration → Prop := fun _ => True
  directive : Directive → Prop := fun _ => True

namespace Item

mutual

/-- An item and everything in it meet a criterion. -/
def Meets (c : Criterion) : Item → Prop
  | .declaration d => c.declaration d
  | .definition d => c.definition d
  | .call k => c.call k
  | .rule selectors body => c.header (.rule selectors) ∧ MeetsAll c body
  | .atRule name params body => c.header (.atRule name params) ∧ MeetsAll c body
  | .mixin name params body => c.header (.mixin name params) ∧ MeetsAll c body

def MeetsAll (c : Criterion) : List Item → Prop
  | [] => True
  | i :: is => Meets c i ∧ MeetsAll c is

end

theorem meetsAll_iff {c : Criterion} {is : List Item} : MeetsAll c is ↔ ∀ i ∈ is, Meets c i := by
  induction is with
  | nil => simp [MeetsAll]
  | cons i is ih => simp [MeetsAll, ih]

end Item

def Statement.Meets (c : Criterion) : Statement → Prop
  | .directive d => c.directive d
  | .definition d => c.definition d
  | .call k => c.call k
  | .rule selectors body => c.header (.rule selectors) ∧ Item.MeetsAll c body
  | .atRule name params body => c.header (.atRule name params) ∧ Item.MeetsAll c body
  | .mixin name params body => c.header (.mixin name params) ∧ Item.MeetsAll c body

theorem Statement.Meets.toItem {c : Criterion} {s : Statement} (h : s.Meets c) {i : Item} (hi : s.toItem? = some i) :
    i.Meets c := by
  cases s with
  | directive d => exact nomatch hi
  | definition | call | rule | atRule | mixin =>
    obtain rfl := Option.some.inj hi
    exact h

theorem Header.meets_toItem {c : Criterion} {h : Header} {body : List Item} (hh : c.header h)
    (hbody : Item.MeetsAll c body) : (h.toItem body).Meets c := by
  cases h <;> exact ⟨hh, hbody⟩

theorem Header.meets_toStatement {c : Criterion} {h : Header} {body : List Item} (hh : c.header h)
    (hbody : Item.MeetsAll c body) : (h.toStatement body).Meets c := by
  cases h <;> exact ⟨hh, hbody⟩

namespace Tokens

/-- Whatever the readers find in a row of tokens meets a criterion. -/
structure Finds (c : Criterion) (ts : List Token) : Prop where
  header : ∀ us h inside, us <:+ ts → lead? us = .ok (some (.opened h, inside)) → c.header h
  definition : ∀ us d rest, us <:+ ts → lead? us = .ok (some (.definition d, rest)) → c.definition d
  call : ∀ us k rest, us <:+ ts → lead? us = .ok (some (.call k, rest)) → c.call k
  declaration : ∀ us d rest, us <:+ ts → lead? us = .ok none → readDeclaration us = .ok (d, rest) → c.declaration d
  directive : ∀ t us d rest, t :: us <:+ ts → t.kind = .atKeyword → lead? (t :: us) = .ok none →
    readDirective t us = .ok (d, rest) → c.directive d

variable {c : Criterion} {ts us rest : List Token}

theorem SameBlock.suffix (h : SameBlock ts rest) : rest <:+ ts := by
  obtain ⟨taken, rfl, -⟩ := h
  exact List.suffix_append taken rest

theorem Opens.suffix (h : Opens ts rest) : rest <:+ ts := by
  obtain ⟨b, -, h⟩ := h
  exact (List.suffix_cons b rest).trans h.suffix

theorem lead?_suffix {t : Token} {l : Lead} (h : lead? (t :: ts) = .ok (some (l, rest))) : rest <:+ t :: ts := by
  have hgives := lead?_gives t ts
  rw [h] at hgives
  cases l with
  | opened header => exact Opens.suffix hgives
  | definition | call => exact SameBlock.suffix hgives

/-- How the head of a row is read: the cases of `lead?` that report no fault. -/
inductive LeadsTo (t : Token) (ts : List Token) : Option (Lead × List Token) → Prop
  | definition {d rest} (hk : t.kind = .atKeyword) (hcolon : (next ts).kind = .colon)
      (hread : readDefinition t ts.tail = .ok (d, rest)) : LeadsTo t ts (some (.definition d, rest))
  | atRule (hk : t.kind = .atKeyword) (hcolon : (next ts).kind ≠ .colon) (hopens : opensBlock ts = true) :
      LeadsTo t ts (some (.opened (readAtHeader t ts).1, (readAtHeader t ts).2))
  | statement (hk : t.kind = .atKeyword) (hcolon : (next ts).kind ≠ .colon) (hopens : opensBlock ts = false) :
      LeadsTo t ts none
  | mixin {s : Signature} {params} (hk : t.kind ≠ .atKeyword) (hread : Signature.read? (t :: ts) = some s)
      (hs : s.isDefinition = true) (hparams : s.argumentList.mapM Signature.parameter = .ok params) :
      LeadsTo t ts (some (.opened (.mixin s.name params), s.rest.tail))
  | call {s : Signature} (hk : t.kind ≠ .atKeyword) (hread : Signature.read? (t :: ts) = some s)
      (hs : s.isCall = true) :
      LeadsTo t ts (some (.call (readCall t.position s).1, (readCall t.position s).2))
  | rule {selectors inside} (hk : t.kind ≠ .atKeyword)
      (hread : readSelectors [] (t :: ts) = .ok (selectors, inside)) :
      LeadsTo t ts (some (.opened (.rule selectors), inside))
  | declaration (hk : t.kind ≠ .atKeyword) (hopens : opensBlock (t :: ts) = false) : LeadsTo t ts none

theorem leadsTo_of_lead? {t : Token} {found : Option (Lead × List Token)} (h : lead? (t :: ts) = .ok found) :
    LeadsTo t ts found := by
  have hrule : t.kind ≠ .atKeyword → ruleHeader? (t :: ts) = .ok found → LeadsTo t ts found := by
    intro hk hr
    rw [ruleHeader?] at hr
    split at hr
    · obtain ⟨⟨selectors, inside⟩, hread, rfl⟩ := map_eq_ok hr
      exact .rule hk hread
    · next hopens =>
      obtain rfl := Except.ok.inj hr
      exact .declaration hk (by simpa using hopens)
  rw [lead?, next_cons, List.tail_cons] at h
  dsimp only at h
  split at h
  · next hk =>
    split at h
    · next hcolon =>
      obtain ⟨⟨d, rest⟩, hread, rfl⟩ := map_eq_ok h
      exact .definition hk hcolon hread
    · next hcolon =>
      split at h
      · next hopens =>
        obtain rfl := Except.ok.inj h
        exact .atRule hk hcolon hopens
      · next hopens =>
        obtain rfl := Except.ok.inj h
        exact .statement hk hcolon (by simpa using hopens)
  · next hk =>
    split at h
    · exact hrule hk h
    · next s hs =>
      split at h
      · next hdefinition =>
        obtain ⟨params, hparams, rfl⟩ := map_eq_ok h
        exact .mixin hk hs hdefinition hparams
      · split at h
        · next hcall =>
          obtain rfl := Except.ok.inj h
          exact .call hk hs hcall
        · exact hrule hk h

/-- What a header was read from: an at-keyword and the tokens up to the `{`, selectors up to it, or a signature. -/
inductive HeadedBy (t : Token) (ts : List Token) : Header → List Token → Prop
  | atRule (hk : t.kind = .atKeyword) (hcolon : (next ts).kind ≠ .colon) (hopens : opensBlock ts = true) :
      HeadedBy t ts (readAtHeader t ts).1 (readAtHeader t ts).2
  | rule {selectors inside} (hk : t.kind ≠ .atKeyword)
      (hread : readSelectors [] (t :: ts) = .ok (selectors, inside)) : HeadedBy t ts (.rule selectors) inside
  | mixin {s : Signature} {params} (hread : Signature.read? (t :: ts) = some s) (hs : s.isDefinition = true) :
      HeadedBy t ts (.mixin s.name params) s.rest.tail

theorem headedBy_of_lead? {t : Token} {h : Header} (hl : lead? (t :: ts) = .ok (some (.opened h, rest))) :
    HeadedBy t ts h rest := by
  cases leadsTo_of_lead? hl with
  | atRule hk hcolon hopens => exact .atRule hk hcolon hopens
  | mixin _ hread hs _ => exact .mixin hread hs
  | rule hk hread => exact .rule hk hread

theorem readSelectors_ne_nil {group : List Token} {selectors : List Text}
    (h : readSelectors group ts = .ok (selectors, rest)) : selectors ≠ [] := by
  fun_induction readSelectors group ts generalizing selectors rest with
  | case1 | case2 | case4 | case6 | case7 | case8 | case9 | case10 | case11 | case12 => cases h
  | case3 =>
    obtain ⟨rfl, -⟩ := Prod.mk.inj (Except.ok.inj h)
    exact List.cons_ne_nil _ _
  | case5 group t ts hk hg ih =>
    obtain ⟨p, -, heq⟩ := bind_eq_ok h
    obtain ⟨rfl, -⟩ := Prod.mk.inj (Except.ok.inj heq)
    exact List.cons_ne_nil _ _
  | case13 group t ts _ _ _ _ _ _ _ _ _ ih => exact ih h

theorem readDeclaration_suffix {d : Declaration} (h : readDeclaration ts = .ok (d, rest)) : rest <:+ ts := by
  have hgives := readDeclaration_gives ts
  rw [h] at hgives
  exact SameBlock.suffix hgives

theorem readDirective_suffix {t : Token} {d : Directive} (h : readDirective t ts = .ok (d, rest)) : rest <:+ ts := by
  have hgives := readDirective_gives t ts
  rw [h] at hgives
  exact SameBlock.suffix hgives

/-- From a row at whose head the readers of a sheet look for an item, they go on to what is left after it. -/
inductive GoesOn : List Token → List Token → Prop
  | mark {t : Token} {ts} (hk : t.kind = .semicolon ∨ t.kind = .rbrace) : GoesOn (t :: ts) ts
  | lead {t : Token} {ts l rest} (h : lead? (t :: ts) = .ok (some (l, rest))) : GoesOn (t :: ts) rest
  | declaration {ts d rest} (h : readDeclaration ts = .ok (d, rest)) : GoesOn ts rest
  | directive {t : Token} {ts d rest} (hk : t.kind = .atKeyword) (h : readDirective t ts = .ok (d, rest)) :
      GoesOn (t :: ts) rest

/-- The rows at whose heads the readers of a sheet look for items. -/
def Visits : List Token → List Token → Prop := Relation.ReflTransGen GoesOn

theorem GoesOn.suffix (h : GoesOn ts us) : us <:+ ts := by
  cases h with
  | mark => exact List.suffix_cons _ _
  | lead h => exact lead?_suffix h
  | declaration h => exact readDeclaration_suffix h
  | directive _ h => exact (readDirective_suffix h).trans (List.suffix_cons _ _)

theorem GoesOn.length_lt (h : GoesOn ts us) : us.length < ts.length := by
  cases h with
  | mark => exact Nat.lt_succ_self _
  | lead h => exact lead?_length h
  | declaration h => exact readDeclaration_length h
  | directive _ h => exact Nat.lt_succ_of_le (readDirective_length h)

theorem Visits.suffix (h : Visits ts us) : us <:+ ts := by
  induction h with
  | refl => exact List.suffix_refl _
  | tail _ hstep ih => exact hstep.suffix.trans ih

theorem GoesOn.ended (h : GoesOn ts us) (hts : Token.Ended ts) : Token.Ended us := by
  cases h with
  | mark hk =>
    rcases Token.ended_cons.mp hts with ⟨heof, -⟩ | ⟨-, hrest⟩
    · rw [heof] at hk
      simp at hk
    · exact hrest
  | @lead t vs l rest h =>
    have hleaves := lead?_gives t vs
    rw [h] at hleaves
    cases l with
    | opened header => exact Opens.ended hleaves hts
    | definition | call => exact SameBlock.ended hleaves hts
  | declaration h =>
    have hgives := readDeclaration_gives ts
    rw [h] at hgives
    exact SameBlock.ended hgives hts
  | @directive t vs d rest hk h =>
    have hgives := readDirective_gives t vs
    rw [h] at hgives
    exact SameBlock.ended (.cons (by simp [endsArguments, hk]) hgives) hts

theorem Visits.ended (h : Visits ts us) (hts : Token.Ended ts) : Token.Ended us := by
  induction h with
  | refl => exact hts
  | tail _ hstep ih => exact hstep.ended ih

/-- Of the tokens up to the rest of a row each has a property. -/
def Takes (P : Token → Prop) (ts rest : List Token) : Prop := ∃ taken, ts = taken ++ rest ∧ ∀ u ∈ taken, P u

namespace Takes

variable {P : Token → Prop}

theorem refl (ts : List Token) : Takes P ts ts := ⟨[], rfl, List.forall_mem_nil P⟩

theorem trans (h : Takes P ts us) (h' : Takes P us rest) : Takes P ts rest := by
  obtain ⟨taken, rfl, htaken⟩ := h
  obtain ⟨taken', rfl, htaken'⟩ := h'
  exact ⟨taken ++ taken', (List.append_assoc ..).symm, List.forall_mem_append.mpr ⟨htaken, htaken'⟩⟩

theorem cons {t : Token} (ht : P t) (h : Takes P ts rest) : Takes P (t :: ts) rest := by
  obtain ⟨taken, rfl, htaken⟩ := h
  exact ⟨t :: taken, rfl, List.forall_mem_cons.mpr ⟨ht, htaken⟩⟩

theorem append {taken : List Token} (htaken : ∀ u ∈ taken, P u) (h : Takes P ts rest) :
    Takes P (taken ++ ts) rest :=
  trans ⟨taken, rfl, htaken⟩ h

theorem suffix (h : Takes P ts rest) : rest <:+ ts := by
  obtain ⟨taken, rfl, -⟩ := h
  exact List.suffix_append taken rest

/-- Of the whole row, if the rest has the property as well. -/
theorem forall_mem (h : Takes P ts rest) (hrest : ∀ u ∈ rest, P u) : ∀ u ∈ ts, P u := by
  obtain ⟨taken, rfl, htaken⟩ := h
  exact List.forall_mem_append.mpr ⟨htaken, hrest⟩

end Takes

/-- What holds of the tokens that each step takes holds of those that all steps take. -/
theorem Visits.takes {P : Token → Prop} (hstep : ∀ {vs ws}, Visits ts vs → GoesOn vs ws → Takes P vs ws)
    (h : Visits ts us) : Takes P ts us := by
  induction h with
  | refl => exact .refl _
  | tail hvisits hgoes ih => exact ih.trans (hstep hvisits hgoes)

/-- Whatever the readers find where they look for items meets a criterion. -/
structure FindsOn (c : Criterion) (ts : List Token) : Prop where
  header : ∀ us h inside, Visits ts us → lead? us = .ok (some (.opened h, inside)) → c.header h
  definition : ∀ us d rest, Visits ts us → lead? us = .ok (some (.definition d, rest)) → c.definition d
  call : ∀ us k rest, Visits ts us → lead? us = .ok (some (.call k, rest)) → c.call k
  declaration : ∀ us d rest, Visits ts us → lead? us = .ok none → readDeclaration us = .ok (d, rest) →
    c.declaration d
  directive : ∀ t us d rest, Visits ts (t :: us) → t.kind = .atKeyword → lead? (t :: us) = .ok none →
    readDirective t us = .ok (d, rest) → c.directive d

/-- Whatever the readers report where they look for items has a property. -/
structure ReportsOn (Q : Diagnostic → Prop) (ts : List Token) : Prop where
  lead : ∀ us d, Visits ts us → lead? us = .error d → Q d
  declaration : ∀ us d, Visits ts us → readDeclaration us = .error d → Q d
  directive : ∀ t us d, Visits ts (t :: us) → readDirective t us = .error d → Q d
  keyword : ∀ t us, Visits ts (t :: us) → Q ((Fault.unexpectedInBlock t.text).blame t.position)
  outside : ∀ t us, Visits ts (t :: us) → Q (Fault.declarationOutsideRule.blame t.position)
  unclosed : Q ⟨.missingClose, none⟩

theorem Finds.on (h : Finds c ts) : FindsOn c ts where
  header us k inside hus := h.header us k inside hus.suffix
  definition us d rest hus := h.definition us d rest hus.suffix
  call us k rest hus := h.call us k rest hus.suffix
  declaration us d rest hus := h.declaration us d rest hus.suffix
  directive t us d rest hus := h.directive t us d rest hus.suffix

theorem ReportsOn.any (ts : List Token) : ReportsOn (fun _ => True) ts :=
  ⟨fun _ _ _ _ => trivial, fun _ _ _ _ => trivial, fun _ _ _ _ _ => trivial, fun _ _ _ => trivial,
    fun _ _ _ => trivial, trivial⟩

variable {Q : Diagnostic → Prop}

/-- By induction on the tokens that are left: a block reads its items where items are looked for. -/
theorem readBlock_ends (hfinds : FindsOn c ts) (hreports : ReportsOn Q ts) (hus : Visits ts us) :
    Ends (fun p => Item.MeetsAll c p.1 ∧ Visits ts p.2) Q (readBlock us) := by
  induction hn : us.length using Nat.strongRecOn generalizing us with
  | ind n ih =>
    subst hn
    cases us with
    | nil =>
      rw [readBlock_nil]
      exact hreports.unclosed
    | cons t us =>
      have hgo : ∀ {vs : List Token} (i : Item), vs.length < (t :: us).length → Visits ts vs → i.Meets c →
          Ends (fun p => Item.MeetsAll c p.1 ∧ Visits ts p.2) Q ((readBlock vs).map (consItem i)) :=
        fun i hlen hvs hi => (ih _ hlen hvs rfl).map fun p hp => ⟨⟨hi, hp.1⟩, hp.2⟩
      rw [readBlock_step]
      split
      · next hk => exact ih _ (Nat.lt_succ_self _) (hus.tail (.mark (.inl hk))) rfl
      · split
        · next hk => exact ⟨trivial, hus.tail (.mark (.inr hk))⟩
        · split
          · exact hreports.unclosed
          · rw [readItem]
            cases hfound : lead? (t :: us) with
            | error d => exact hreports.lead _ d hus hfound
            | ok found =>
              rcases found with _ | ⟨d | k | header, after⟩
              · rw [ok_bind]
                dsimp only
                split
                · exact hreports.keyword t us hus
                · cases hd : readDeclaration (t :: us) with
                  | error d => exact hreports.declaration _ d hus hd
                  | ok p =>
                    obtain ⟨d, after⟩ := p
                    exact hgo (.declaration d) (readDeclaration_length hd) (hus.tail (.declaration hd))
                      (hfinds.declaration _ _ _ hus hfound hd)
              · exact hgo (.definition d) (lead?_length hfound) (hus.tail (.lead hfound))
                  (hfinds.definition _ _ _ hus hfound)
              · exact hgo (.call k) (lead?_length hfound) (hus.tail (.lead hfound)) (hfinds.call _ _ _ hus hfound)
              · have hlen := lead?_length hfound
                refine (ih _ hlen (hus.tail (.lead hfound)) rfl).bind ?_
                rintro ⟨body, closed⟩ hbody ⟨hmeets, hclosed⟩
                exact hgo _ (Nat.lt_trans (readBlock_length hbody) hlen) hclosed
                  (Header.meets_toItem (hfinds.header _ _ _ hus hfound) hmeets)

/-- A sheet is read to the end of its row. -/
theorem readStatements_ends (hfinds : FindsOn c ts) (hreports : ReportsOn Q ts) (hus : Visits ts us) :
    Ends (fun s => (∀ x ∈ s, Statement.Meets c x) ∧ ∃ rest, Visits ts rest ∧ (next rest).kind = .eof) Q
      (readStatements us) := by
  induction hn : us.length using Nat.strongRecOn generalizing us with
  | ind n ih =>
    subst hn
    cases us with
    | nil =>
      rw [readStatements_nil]
      exact ⟨List.forall_mem_nil _, [], hus, rfl⟩
    | cons t us =>
      have hgo : ∀ {vs : List Token} (x : Statement), vs.length < (t :: us).length → Visits ts vs → x.Meets c →
          Ends (fun s => (∀ x ∈ s, Statement.Meets c x) ∧ ∃ rest, Visits ts rest ∧ (next rest).kind = .eof) Q
            ((readStatements vs).map (x :: ·)) :=
        fun x hlen hvs hx => (ih _ hlen hvs rfl).map fun ys hys => ⟨List.forall_mem_cons.mpr ⟨hx, hys.1⟩, hys.2⟩
      rw [readStatements_step]
      split
      · next hk => exact ⟨List.forall_mem_nil _, t :: us, hus, hk⟩
      · split
        · next hk => exact ih _ (Nat.lt_succ_self _) (hus.tail (.mark (.inl hk))) rfl
        · rw [readStatement]
          cases hfound : lead? (t :: us) with
          | error d => exact hreports.lead _ d hus hfound
          | ok found =>
            rcases found with _ | ⟨d | k | header, after⟩
            · rw [ok_bind]
              dsimp only
              split
              · next hk =>
                cases hd : readDirective t us with
                | error d => exact hreports.directive t us d hus hd
                | ok p =>
                  obtain ⟨d, after⟩ := p
                  exact hgo (.directive d) (Nat.lt_succ_of_le (readDirective_length hd)) (hus.tail (.directive hk hd))
                    (hfinds.directive _ _ _ _ hus hk hfound hd)
              · exact hreports.outside t us hus
            · exact hgo (.definition d) (lead?_length hfound) (hus.tail (.lead hfound))
                (hfinds.definition _ _ _ hus hfound)
            · exact hgo (.call k) (lead?_length hfound) (hus.tail (.lead hfound)) (hfinds.call _ _ _ hus hfound)
            · refine (readBlock_ends hfinds hreports (hus.tail (.lead hfound))).bind ?_
              rintro ⟨body, closed⟩ hbody ⟨hmeets, hclosed⟩
              exact hgo _ (Nat.lt_trans (readBlock_length hbody) (lead?_length hfound)) hclosed
                (Header.meets_toStatement (hfinds.header _ _ _ hus hfound) hmeets)

end Tokens

theorem Sheet.meets_of_ofTokens {c : Criterion} {ts : List Token} {s : Sheet} (hfinds : Tokens.Finds c ts)
    (h : Sheet.ofTokens ts = .ok s) : ∀ x ∈ s, x.Meets c := by
  rw [ofTokens] at h
  split at h
  · cases h
  · exact ((Tokens.readStatements_ends hfinds.on (.any ts) .refl).of_ok h).1

end LessCss
