import Mathlib.Control.Monad.Basic
import LessCss.Compile
import LessCss.Proofs.Css.Steps
import LessCss.Proofs.Sheet.Grammar
/-!
The selectors of a rule and the commas between them.

The reader of selectors ends one at every comma, while the reader of arguments counts parentheses (`pieces`). Both
agree on a row of which no comma stands between parentheses (`splitOnP_eq_pieces`). Then each selector has its
parentheses paired, and in a row with paired parentheses only then (`paired_groups_iff`).
-/
namespace LessCss

namespace Tokens

variable {depth : Nat} {ts us rest group : List Token} {selectors : List Text}

def isComma (t : Token) : Bool := t.kind = .comma

theorem isComma_iff {t : Token} : isComma t = true ↔ t.kind = .comma := decide_eq_true_iff

/-- The number of parentheses that are open after a row, `depth` of which are open before it. -/
abbrev openAfter? (depth : Nat) (ts : List Token) : Option Nat := depthAfter? (fun _ => false) depth ts

def Paired (ts : List Token) : Prop := openAfter? 0 ts = some 0

instance (ts : List Token) : Decidable (Paired ts) := inferInstanceAs (Decidable (_ = _))

/-- The number of open parentheses after a token, none if it closes one too many. -/
def tally (depth : Nat) (t : Token) : Nat :=
  match t.kind with
  | .lparen | .function => depth + 1
  | .rparen => depth - 1
  | _ => depth

/-- The number of commas in a row outside all parentheses, `depth` of which are open before it. -/
def outerCommas : Nat → List Token → Nat
  | _, [] => 0
  | depth, t :: ts =>
    if t.kind = .comma ∧ depth = 0 then outerCommas 0 ts + 1 else outerCommas (tally depth t) ts

/-- Every comma in a row stands outside all parentheses. -/
def CommasOutside (depth : Nat) (ts : List Token) : Prop :=
  ∀ before t after, ts = before ++ t :: after → isComma t = true → openAfter? depth before = some 0

theorem openAfter?_cons {t : Token} {n : Nat} (h : openAfter? depth (t :: ts) = some n) :
    ∃ d, openAfter? depth [t] = some d ∧ openAfter? d ts = some n := by
  rw [openAfter?, ← List.singleton_append, depthAfter?_append] at h
  exact Option.bind_eq_some_iff.mp h

theorem openAfter?_step {t : Token} {d : Nat} (hstep : openAfter? depth [t] = some d) (ts : List Token) :
    openAfter? depth (t :: ts) = openAfter? d ts := by
  rw [openAfter?, ← List.singleton_append, depthAfter?_append, show depthAfter? _ depth [t] = some d from hstep]
  rfl

theorem openAfter?_comma {t : Token} (ht : isComma t = true) (depth : Nat) : openAfter? depth [t] = some depth := by
  simp [openAfter?, depthAfter?, isComma_iff.mp ht]

theorem tally_of_openAfter? {t : Token} {d : Nat} (hstep : openAfter? depth [t] = some d) : tally depth t = d := by
  unfold openAfter? depthAfter? at hstep
  unfold tally
  cases hk : t.kind <;> cases depth <;> simp_all [depthAfter?]

/-- A token that parts nothing begins the first of the pieces behind it. -/
theorem pieces_cons_of_inner {separator : Token.Kind} {t : Token} (ht : ¬(t.kind = separator ∧ depth = 0))
    (ts : List Token) :
    pieces separator depth (t :: ts) = (pieces separator (tally depth t) ts).modifyHead (t :: ·) := by
  rw [pieces, if_neg ht]
  dsimp only
  split
  · next hnil => exact absurd hnil (pieces_ne_nil _ _ _)
  · next p ps hpieces =>
    rw [show pieces separator (tally depth t) ts = p :: ps from hpieces]
    rfl

theorem pieces_step {t : Token} {d : Nat} (hstep : openAfter? depth [t] = some d)
    (ht : ¬(t.kind = .comma ∧ depth = 0)) (ts : List Token) :
    pieces .comma depth (t :: ts) = (pieces .comma d ts).modifyHead (t :: ·) :=
  tally_of_openAfter? hstep ▸ pieces_cons_of_inner ht ts

theorem commasOutside_cons {t : Token} {d : Nat} (hstep : openAfter? depth [t] = some d) :
    CommasOutside depth (t :: ts) ↔ (isComma t = true → depth = 0) ∧ CommasOutside d ts := by
  refine ⟨fun h => ⟨fun ht => ?_, fun before u after hts hu => ?_⟩, ?_⟩
  · exact Option.some.inj (h [] t ts rfl ht)
  · rw [← openAfter?_step hstep]
    exact h (t :: before) u after (congrArg (t :: ·) hts) hu
  · rintro ⟨hhead, htail⟩ (_ | ⟨v, before⟩) u after hts hu
    · obtain ⟨rfl, -⟩ := List.cons.inj hts
      exact congrArg some (hhead hu)
    · obtain ⟨rfl, rfl⟩ := List.cons.inj hts
      rw [openAfter?_step hstep]
      exact htail before u after rfl hu

/-- Where no comma stands between parentheses it makes no difference whether they are counted. -/
theorem splitOnP_eq_pieces {n : Nat} (h : openAfter? depth ts = some n) (hcommas : CommasOutside depth ts) :
    ts.splitOnP isComma = pieces .comma depth ts := by
  induction ts generalizing depth with
  | nil => rfl
  | cons t ts ih =>
    obtain ⟨d, hstep, hts⟩ := openAfter?_cons h
    obtain ⟨hhead, htail⟩ := (commasOutside_cons hstep).mp hcommas
    rw [List.splitOnP_cons_eq_if_modifyHead]
    split
    · next ht =>
      obtain rfl := hhead ht
      obtain rfl : 0 = d := Option.some.inj ((openAfter?_comma ht 0).symm.trans hstep)
      rw [pieces, if_pos ⟨isComma_iff.mp ht, rfl⟩, ih hts htail]
    · next ht =>
      rw [pieces_step hstep fun hk => ht (isComma_iff.mpr hk.1), ih hts htail]

/-- The pieces between the outer commas have their parentheses paired if the row has. -/
theorem paired_pieces (h : openAfter? depth ts = some 0) :
    ∃ p ps, pieces .comma depth ts = p :: ps ∧ openAfter? depth p = some 0 ∧ ∀ q ∈ ps, Paired q := by
  induction ts generalizing depth with
  | nil => exact ⟨[], [], rfl, h, List.forall_mem_nil _⟩
  | cons t ts ih =>
    obtain ⟨d, hstep, hts⟩ := openAfter?_cons h
    obtain ⟨p, ps, hpieces, hp, hps⟩ := ih hts
    by_cases ht : t.kind = .comma ∧ depth = 0
    · obtain ⟨hk, rfl⟩ := ht
      obtain rfl : 0 = d := Option.some.inj ((openAfter?_comma (isComma_iff.mpr hk) 0).symm.trans hstep)
      refine ⟨[], p :: ps, ?_, rfl, List.forall_mem_cons.mpr ⟨hp, hps⟩⟩
      rw [pieces, if_pos ⟨hk, rfl⟩, hpieces]
    · refine ⟨t :: p, ps, ?_, (openAfter?_step hstep p).trans hp, hps⟩
      rw [pieces_step hstep ht, hpieces]
      rfl

/-- If the groups between the commas have their parentheses paired, so has the row, and no comma of it stands between
parentheses. -/
theorem commasOutside_of_groups {g : List Token} {gs : List (List Token)} (hsplit : ts.splitOnP isComma = g :: gs)
    (hg : openAfter? depth g = some 0) (hgs : ∀ q ∈ gs, Paired q) :
    openAfter? depth ts = some 0 ∧ CommasOutside depth ts := by
  -- the first group may begin between parentheses, since the row begins with any number of them open
  induction ts generalizing depth g gs with
  | nil =>
    obtain ⟨rfl, -⟩ := List.cons.inj hsplit
    exact ⟨hg, fun before t after hts => absurd hts (by simp)⟩
  | cons t ts ih =>
    rw [List.splitOnP_cons_eq_if_modifyHead] at hsplit
    cases hrest : ts.splitOnP isComma with
    | nil => exact absurd hrest (List.splitOnP_ne_nil _ _)
    | cons r rs =>
      rw [hrest] at hsplit
      split at hsplit
      · next ht =>
        obtain ⟨rfl, rfl⟩ := List.cons.inj hsplit
        obtain rfl : depth = 0 := Option.some.inj hg
        obtain ⟨hr, hrs⟩ := List.forall_mem_cons.mp hgs
        have hstep := openAfter?_comma ht 0
        obtain ⟨hopen, hcommas⟩ := ih hrest hr hrs
        exact ⟨(openAfter?_step hstep ts).trans hopen, (commasOutside_cons hstep).mpr ⟨fun _ => rfl, hcommas⟩⟩
      · next ht =>
        obtain ⟨rfl, rfl⟩ := List.cons.inj hsplit
        obtain ⟨d, hstep, hr⟩ := openAfter?_cons hg
        obtain ⟨hopen, hcommas⟩ := ih hrest hr hgs
        exact ⟨(openAfter?_step hstep ts).trans hopen,
          (commasOutside_cons hstep).mpr ⟨fun hcomma => absurd hcomma ht, hcommas⟩⟩

/-- The groups between all the commas of a row have their parentheses paired exactly if the row has and no comma of it
stands between parentheses. -/
theorem paired_groups_iff : (∀ g ∈ ts.splitOnP isComma, Paired g) ↔ Paired ts ∧ CommasOutside 0 ts := by
  constructor
  · intro h
    cases hsplit : ts.splitOnP isComma with
    | nil => exact absurd hsplit (List.splitOnP_ne_nil _ _)
    | cons g gs =>
      rw [hsplit, List.forall_mem_cons] at h
      exact commasOutside_of_groups hsplit h.1 h.2
  · rintro ⟨hpaired, hcommas⟩
    obtain ⟨p, ps, hpieces, hp, hps⟩ := paired_pieces hpaired
    rw [splitOnP_eq_pieces hpaired hcommas, hpieces]
    exact List.forall_mem_cons.mpr ⟨hp, hps⟩

theorem length_splitOnP (ts : List Token) : (ts.splitOnP isComma).length = ts.countP isComma + 1 := by
  induction ts with
  | nil => rfl
  | cons t ts ih =>
    rw [List.splitOnP_cons_eq_if_modifyHead, List.countP_cons]
    split
    · rw [List.length_cons, ih]
    · rw [List.length_modifyHead, ih]

theorem mem_of_mem_group {t : Token} {g : List Token} (hg : g ∈ ts.splitOnP isComma) (ht : t ∈ g) :
    t ∈ ts ∧ isComma t = false := by
  induction ts generalizing g with
  | nil =>
    obtain rfl := List.mem_singleton.mp hg
    exact nomatch ht
  | cons u ts ih =>
    have hrest : ∀ {r}, r ∈ ts.splitOnP isComma → t ∈ r → t ∈ u :: ts ∧ isComma t = false :=
      fun hr ht => (ih hr ht).imp_left (List.mem_cons_of_mem u)
    rw [List.splitOnP_cons_eq_if_modifyHead] at hg
    split at hg
    · rcases List.mem_cons.mp hg with rfl | hg
      · exact nomatch ht
      · exact hrest hg ht
    · next hu =>
      cases hsplit : ts.splitOnP isComma with
      | nil => exact absurd hsplit (List.splitOnP_ne_nil _ _)
      | cons r rs =>
        rw [hsplit] at hg hrest
        rcases List.mem_cons.mp hg with rfl | hg
        · rcases List.mem_cons.mp ht with rfl | ht
          · exact ⟨List.mem_cons_self, by simpa using hu⟩
          · exact hrest List.mem_cons_self ht
        · exact hrest (List.mem_cons_of_mem r hg) ht

theorem outerCommas_le (depth : Nat) (ts : List Token) : outerCommas depth ts ≤ ts.countP isComma := by
  induction ts generalizing depth with
  | nil => exact Nat.le_refl 0
  | cons t ts ih =>
    rw [outerCommas, List.countP_cons]
    split
    · next ht =>
      rw [if_pos (isComma_iff.mpr ht.1)]
      exact Nat.succ_le_succ (ih 0)
    · exact Nat.le_trans (ih _) (Nat.le_add_right _ _)

/-- All commas are outer ones exactly if none stands between parentheses. -/
theorem outerCommas_eq_iff {n : Nat} (h : openAfter? depth ts = some n) :
    outerCommas depth ts = ts.countP isComma ↔ CommasOutside depth ts := by
  induction ts generalizing depth with
  | nil => exact ⟨fun _ before t after hts => absurd hts (by simp), fun _ => rfl⟩
  | cons t ts ih =>
    obtain ⟨d, hstep, hts⟩ := openAfter?_cons h
    rw [commasOutside_cons hstep, ← ih hts, outerCommas, tally_of_openAfter? hstep, List.countP_cons]
    by_cases ht : isComma t = true
    · have hk := isComma_iff.mp ht
      obtain rfl : depth = d := Option.some.inj ((openAfter?_comma ht depth).symm.trans hstep)
      have hle := outerCommas_le depth ts
      by_cases hdepth : depth = 0
      · subst hdepth
        simp [ht, hk]
      · -- this comma is not counted, and the commas behind it do not make up for it
        simp only [hk, hdepth, ht, and_false, if_false, if_true, true_implies, false_and, iff_false]
        omega
    · simp [ht, mt isComma_iff.mpr ht]

/-- A row of tokens stands before the `{` of a rule in `ts` and is read as the selectors of the rule. These are the
groups between the commas of the row. -/
structure HeadsRule (ts : List Token) (selectors : List Text) (row : List Token) : Prop where
  stands : ∃ before lbrace inside, ts = before ++ (row ++ lbrace :: inside) ∧ lbrace.kind = .lbrace ∧
    lead? (row ++ lbrace :: inside) = .ok (some (.opened (.rule selectors), inside))
  fits : ∀ t ∈ row, isComma t = true ∨ Written.inSelector t = true
  texts : selectors = (row.splitOnP isComma).map Token.join
  ne_nil : ∀ g ∈ row.splitOnP isComma, g ≠ []

theorem HeadsRule.mem (h : HeadsRule ts selectors us) {t : Token} (ht : t ∈ us) : t ∈ ts := by
  obtain ⟨before, lbrace, inside, rfl, -⟩ := h.stands
  exact List.mem_append_right _ (List.mem_append_left _ ht)

theorem HeadsRule.fits_group (h : HeadsRule ts selectors us) {g : List Token} (hg : g ∈ us.splitOnP isComma) :
    ∀ t ∈ g, Written.inSelector t = true := by
  intro t ht
  obtain ⟨hmem, hcomma⟩ := mem_of_mem_group hg ht
  exact (h.fits t hmem).resolve_left (by simp [hcomma])

/-- What the reader takes up to a `{` are the groups between the commas. The first group begins with the tokens that it
has taken before. -/
theorem readSelectors_row (h : readSelectors group ts = .ok (selectors, rest))
    (hgroup : ∀ t ∈ group, isComma t = false) :
    ∃ row lbrace, ts = row ++ lbrace :: rest ∧ lbrace.kind = .lbrace ∧
      (∀ t ∈ row, isComma t = true ∨ Written.inSelector t = true) ∧
      selectors = ((group ++ row).splitOnP isComma).map Token.join ∧
      ∀ g ∈ (group ++ row).splitOnP isComma, g ≠ [] := by
  fun_induction readSelectors group ts generalizing selectors rest with
  | case1 | case2 | case4 | case6 | case7 | case8 | case9 | case10 | case11 | case12 => cases h
  | case3 group t ts hk hg =>
    obtain ⟨rfl, rfl⟩ := Prod.mk.inj (Except.ok.inj h)
    refine ⟨[], t, rfl, hk, List.forall_mem_nil _, ?_, ?_⟩
    · rw [List.append_nil, List.splitOnP_eq_singleton hgroup]
      rfl
    · rw [List.append_nil, List.splitOnP_eq_singleton hgroup]
      exact List.forall_mem_singleton.mpr (by simpa using hg)
  | case5 group t ts hk hg ih =>
    obtain ⟨⟨others, rest⟩, hothers, heq⟩ := bind_eq_ok h
    obtain ⟨rfl, rfl⟩ := Prod.mk.inj (Except.ok.inj heq)
    obtain ⟨row, lbrace, rfl, hlbrace, hfits, rfl, hne⟩ := ih hothers (List.forall_mem_nil _)
    have ht : isComma t = true := isComma_iff.mpr hk
    have hsplit := List.splitOnP_append_cons_of_forall_mem hgroup t ht row
    refine ⟨t :: row, lbrace, rfl, hlbrace, List.forall_mem_cons.mpr ⟨.inl ht, hfits⟩, ?_, ?_⟩
    · rw [hsplit]
      rfl
    · rw [hsplit]
      exact List.forall_mem_cons.mpr ⟨by simpa using hg, hne⟩
  | case13 group t ts h₁ h₂ h₃ h₄ h₅ h₆ h₇ h₈ hd ih =>
    have hin : Written.inSelector t = true := by
      unfold Written.inSelector
      split <;> simp_all
    have hcomma : isComma t = false := by simpa [isComma] using (Written.inSelector_iff hin).2.2.1
    obtain ⟨row, lbrace, rfl, hlbrace, hfits, htexts, hne⟩ := ih h
      (List.forall_mem_append.mpr ⟨hgroup, List.forall_mem_singleton.mpr hcomma⟩)
    rw [List.append_assoc, List.singleton_append] at htexts hne
    exact ⟨t :: row, lbrace, rfl, hlbrace, List.forall_mem_cons.mpr ⟨.inr hin, hfits⟩, htexts, hne⟩

end Tokens

open Tokens

namespace Item

mutual

/-- The selectors of the rules in an item, at any depth. -/
def rules : Item → List (List Text)
  | .rule own body => own :: rulesAll body
  | .atRule _ _ body => rulesAll body
  | .mixin _ _ body => rulesAll body
  | .declaration _ => []
  | .definition _ => []
  | .call _ => []

def rulesAll : List Item → List (List Text)
  | [] => []
  | i :: is => rules i ++ rulesAll is

end

end Item

def Sheet.rules (s : Sheet) : List (List Text) := Item.rulesAll s.items

def Criterion.rules (P : List Text → Prop) : Criterion where
  header
    | .rule selectors => P selectors
    | _ => True

namespace Item

variable {P : List Text → Prop} {own : List Text}

mutual

theorem Meets.forall_rules {i : Item} (h : i.Meets (.rules P)) (hown : own ∈ i.rules) : P own := by
  cases i with
  | declaration | definition | call => exact nomatch hown
  | rule selectors body =>
    rcases List.mem_cons.mp hown with rfl | hown
    · exact h.1
    · exact MeetsAll.forall_rules h.2 hown
  | atRule | mixin => exact MeetsAll.forall_rules h.2 hown

theorem MeetsAll.forall_rules {is : List Item} (h : MeetsAll (.rules P) is) (hown : own ∈ rulesAll is) : P own := by
  cases is with
  | nil => exact nomatch hown
  | cons i is =>
    rcases List.mem_append.mp hown with hown | hown
    · exact Meets.forall_rules h.1 hown
    · exact MeetsAll.forall_rules h.2 hown

end

end Item

/-- The selectors of every rule in a sheet have been read from a row before a `{`. -/
theorem Sheet.meets_rules {P : List Text → Prop} {ts : List Token} {s : Sheet} (h : Sheet.ofTokens ts = .ok s)
    (hP : ∀ selectors row, HeadsRule ts selectors row → P selectors) : ∀ x ∈ s, x.Meets (.rules P) := by
  refine meets_of_ofTokens ⟨?_, fun _ _ _ _ _ => trivial, fun _ _ _ _ _ => trivial, fun _ _ _ _ _ _ => trivial,
    fun _ _ _ _ _ _ _ _ => trivial⟩ h
  rintro us header inside hus hlead
  cases us with
  | nil => exact nomatch hlead
  | cons t us =>
    cases header with
    | atRule | mixin => trivial
    | rule selectors =>
      cases headedBy_of_lead? hlead with
      | rule hk hread =>
        obtain ⟨row, lbrace, hrow, hlbrace, hfits, htexts, hne⟩ := readSelectors_row hread (List.forall_mem_nil _)
        rw [hrow] at hlead hus
        obtain ⟨before, hts⟩ := hus
        exact hP selectors row ⟨⟨before, lbrace, inside, hts.symm, hlbrace, hlead⟩, hfits, htexts, hne⟩

theorem Sheet.exists_headsRule {ts : List Token} {s : Sheet} (h : Sheet.ofTokens ts = .ok s) {selectors : List Text}
    (hs : selectors ∈ s.rules) : ∃ row, HeadsRule ts selectors row := by
  have hmeets := meets_rules (P := fun own => ∃ row, HeadsRule ts own row) h fun _ row hrow => ⟨row, hrow⟩
  exact (meetsAll_items hmeets).forall_rules hs

theorem Css.nestSelectors_eq {parents : List Text} (h : parents ≠ []) (children : List Text) :
    nestSelectors parents children = parents.flatMap fun p => children.map (nestSelector p) := by
  rw [nestSelectors, if_neg (by simpa using h)]

/-- How the selectors of a row are separated. With paired parentheses they are as many as the outer commas make them,
and have their parentheses paired, exactly if no comma stands between parentheses. Then they are the pieces between the
outer commas, and each piece is put into every parent as one selector. -/
structure SplitAtCommas (row : List Token) (selectors : List Text) : Prop where
  length : selectors.length = row.countP isComma + 1
  length_iff : Paired row → (selectors.length = outerCommas 0 row + 1 ↔ CommasOutside 0 row)
  paired_iff : Paired row → ((∀ g ∈ row.splitOnP isComma, Paired g) ↔ CommasOutside 0 row)
  texts : Paired row → CommasOutside 0 row → selectors = (pieces .comma 0 row).map Token.join
  nested : Paired row → CommasOutside 0 row → ∀ parents, parents ≠ [] → Css.nestSelectors parents selectors =
    parents.flatMap fun p => (pieces .comma 0 row).map fun g => Css.nestSelector p (Token.join g)

theorem Tokens.HeadsRule.splitAtCommas {ts row : List Token} {selectors : List Text} (h : HeadsRule ts selectors row) :
    SplitAtCommas row selectors := by
  have hlength : selectors.length = row.countP isComma + 1 := by
    rw [h.texts, List.length_map, length_splitOnP]
  have htexts : Paired row → CommasOutside 0 row → selectors = (pieces .comma 0 row).map Token.join := by
    intro hpaired hcommas
    rw [h.texts, splitOnP_eq_pieces hpaired hcommas]
  refine ⟨hlength, fun hpaired => ?_, fun hpaired => ?_, htexts, fun hpaired hcommas parents hparents => ?_⟩
  · rw [← outerCommas_eq_iff hpaired, hlength, Nat.add_right_cancel_iff]
    exact eq_comm
  · rw [paired_groups_iff]
    exact and_iff_right hpaired
  · rw [Css.nestSelectors_eq hparents, htexts hpaired hcommas]
    simp only [List.map_map, Function.comp_def]

/-- The selectors of every rule in a sheet stand before a `{`, and every comma there separates two of them. -/
theorem Sheet.selectors_of_ofTokens {ts : List Token} {s : Sheet} (h : ofTokens ts = .ok s) :
    ∀ selectors ∈ s.rules, ∃ row, HeadsRule ts selectors row ∧ SplitAtCommas row selectors := by
  intro selectors hs
  obtain ⟨row, hrow⟩ := exists_headsRule h hs
  exact ⟨row, hrow, hrow.splitAtCommas⟩

/-- A rule in a rule, with parentheses in the selectors of both. -/
theorem Sheet.selectors_of_ofTokens_nested :
    let ts := Token.ofText ".a, .b:not(.c) \x7b d:is(.e), f \x7b g: h; \x7d \x7d".toList
    ∃ s, ofTokens ts = .ok s ∧ s.rules = [[".a".toList, ".b:not(.c)".toList], ["d:is(.e)".toList, "f".toList]] ∧
      ∀ selectors ∈ s.rules, ∃ row, HeadsRule ts selectors row ∧ SplitAtCommas row selectors := by
  intro ts
  have hparsed : (ofTokens ts).toOption.any fun s =>
      s.rules = [[".a".toList, ".b:not(.c)".toList], ["d:is(.e)".toList, "f".toList]] := by
    decide +kernel
  obtain ⟨s, hs, hrules⟩ := (Option.any_eq_true _ _).mp hparsed
  have hread := eq_ok_of_toOption hs
  exact ⟨s, hread, of_decide_eq_true hrules, selectors_of_ofTokens hread⟩

/-- A comma between parentheses parts a selector, and the parent is put before the second part as well. -/
theorem Sheet.selectors_parted :
    let source := "a \x7b :not(.a, .b) \x7b c: d; \x7d \x7d".toList
    let ts := Token.ofText source
    let row := (ts.drop 2).take 8
    let selectors := [":not(.a".toList, ".b)".toList]
    lead? (ts.drop 2) = .ok (some (.opened (.rule selectors), ts.drop 11)) ∧ ts.drop 2 = row ++ ts.drop 10 ∧
      Paired row ∧ selectors.length ≠ outerCommas 0 row + 1 ∧ (∀ g ∈ row.splitOnP isComma, ¬Paired g) ∧
      compile .pretty source = .ok "a :not(.a, a .b) \x7b\n  c: d;\n\x7d\n".toList := by
  decide +kernel

end LessCss
