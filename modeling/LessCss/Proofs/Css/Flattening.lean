import LessCss.Compile
import LessCss.Proofs.Css.Size
import LessCss.Proofs.Sheet.Items
/-!
Where the declarations of a sheet go.

`Sheet.parts` lists what a sheet consists of, block by block in the order of the text: the declarations of a block
under the selectors of the rules around them, then what is nested in the block. `Css.Node.partsAll` lists what a style
sheet consists of. Where there are no calls the two lists are the same (`Sheet.evaluate_parts`), so no declaration is
lost, made twice or moved. What a body yields is followed item by item, with the selectors around it.
-/
namespace LessCss

/-- What evaluation keeps of a declaration: its name and whether it is important. -/
abbrev Label := Text × Bool

def Declaration.label (d : Declaration) : Label := (d.name, d.important)

def Css.Property.label (p : Css.Property) : Label := (p.name, p.important)

/-- A part of a sheet or of a style sheet. The declarations of one block are one part. -/
inductive Part
  | directive (name params : Text)
  | enter (name params : Text)
  | own (labels : List Label)
  | rule (selectors : List Text) (labels : List Label)
  | leave
deriving DecidableEq, Repr

namespace Part

/-- The declarations of a block, if it has any: a rule with the selectors around them, or directly in an at-rule where
no rule is around them. -/
def ofBlock (around : Option (List Text)) (labels : List Label) : List Part :=
  if labels.isEmpty then []
  else match around with
    | none => [own labels]
    | some selectors => [rule selectors labels]

def labels : Part → List Label
  | own labels | rule _ labels => labels
  | _ => []

def heading? : Part → Option (Text × Text)
  | directive name params | enter name params => some (name, params)
  | _ => none

variable (around : Option (List Text)) (ls : List Label)

theorem labels_ofBlock : (ofBlock around ls).flatMap labels = ls := by
  cases ls with
  | nil => rfl
  | cons l ls => cases around <;> simp [ofBlock, labels]

theorem heading?_ofBlock : (ofBlock around ls).filterMap heading? = [] := by
  cases ls with
  | nil => rfl
  | cons l ls => cases around <;> rfl

theorem labels_ne_nil_of_ofBlock {selectors : List Text} {labels : List Label}
    (h : rule selectors labels ∈ ofBlock around ls) : labels ≠ [] := by
  rintro rfl
  cases ls with
  | nil => exact nomatch h
  | cons l ls => cases around <;> simp [ofBlock] at h

end Part

namespace Css.Node

mutual

/-- The parts of a node in the order of the text. -/
def parts : Node → List Part
  | rule selectors properties => [.rule selectors (properties.map Property.label)]
  | atRule name params properties children =>
    .enter name params :: (Part.ofBlock none (properties.map Property.label) ++ partsAll children ++ [.leave])
  | directive name params => [.directive name params]

def partsAll : List Node → List Part
  | [] => []
  | n :: ns => parts n ++ partsAll ns

end

mutual

/-- The properties in a node, at any depth. -/
def labels : Node → List Label
  | rule _ properties => properties.map Property.label
  | atRule _ _ properties children => properties.map Property.label ++ labelsAll children
  | directive .. => []

def labelsAll : List Node → List Label
  | [] => []
  | n :: ns => labels n ++ labelsAll ns

end

mutual

/-- The directives and at-rules in a node, at any depth. -/
def headings : Node → List (Text × Text)
  | rule .. => []
  | atRule name params _ children => (name, params) :: headingsAll children
  | directive name params => [(name, params)]

def headingsAll : List Node → List (Text × Text)
  | [] => []
  | n :: ns => headings n ++ headingsAll ns

end

theorem partsAll_append (ns ms : List Node) : partsAll (ns ++ ms) = partsAll ns ++ partsAll ms := by
  induction ns with
  | nil => rfl
  | cons n ns ih => rw [List.cons_append, partsAll, ih, partsAll, List.append_assoc]

mutual

theorem labels_parts (n : Node) : (parts n).flatMap Part.labels = labels n := by
  cases n with
  | rule selectors properties => simp [parts, labels, Part.labels]
  | atRule name params properties children =>
    rw [parts, List.flatMap_cons, List.flatMap_append, List.flatMap_append, Part.labels_ofBlock, labels_partsAll children,
      labels]
    simp [Part.labels]
  | directive name params => rfl

theorem labels_partsAll (ns : List Node) : (partsAll ns).flatMap Part.labels = labelsAll ns := by
  cases ns with
  | nil => rfl
  | cons n ns => rw [partsAll, List.flatMap_append, labels_parts n, labels_partsAll ns, labelsAll]

end

mutual

theorem headings_parts (n : Node) : (parts n).filterMap Part.heading? = headings n := by
  cases n with
  | rule selectors properties => rfl
  | atRule name params properties children =>
    rw [parts, List.filterMap_cons, Part.heading?, List.filterMap_append, List.filterMap_append, Part.heading?_ofBlock,
      headings_partsAll children, headings]
    simp [Part.heading?]
  | directive name params => rfl

theorem headings_partsAll (ns : List Node) : (partsAll ns).filterMap Part.heading? = headingsAll ns := by
  cases ns with
  | nil => rfl
  | cons n ns => rw [partsAll, List.filterMap_append, headings_parts n, headings_partsAll ns, headingsAll]

end

end Css.Node

namespace Item

def label? : Item → Option Label
  | .declaration d => some d.label
  | _ => none

/-- The declarations directly in a body. -/
def ownLabels (is : List Item) : List Label := is.filterMap label?

mutual

/-- The parts of an item inside of rules with the given selectors, or outside of any rule. A declaration belongs to the
block that it stands in. What stands in the definition of a mixin does not count. -/
def parts (around : Option (List Text)) : Item → List Part
  | .rule own body =>
    let selectors := Css.nestSelectors (around.getD []) own
    Part.ofBlock (some selectors) (ownLabels body) ++ partsAll (some selectors) body
  | .atRule name params body =>
    .enter name params :: (Part.ofBlock around (ownLabels body) ++ partsAll around body ++ [.leave])
  | _ => []

def partsAll (around : Option (List Text)) : List Item → List Part
  | [] => []
  | i :: is => parts around i ++ partsAll around is

end

mutual

/-- The declarations in an item in the order of the text, but for those in definitions of mixins. -/
def labels : Item → List Label
  | .declaration d => [d.label]
  | .rule _ body => labelsAll body
  | .atRule _ _ body => labelsAll body
  | _ => []

def labelsAll : List Item → List Label
  | [] => []
  | i :: is => labels i ++ labelsAll is

end

mutual

/-- The at-rules in an item in the order of the text, but for those in definitions of mixins. -/
def headings : Item → List (Text × Text)
  | .rule _ body => headingsAll body
  | .atRule name params body => (name, params) :: headingsAll body
  | _ => []

def headingsAll : List Item → List (Text × Text)
  | [] => []
  | i :: is => headings i ++ headingsAll is

end

theorem ownLabels_cons (i : Item) (is : List Item) : ownLabels (i :: is) = (label? i).toList ++ ownLabels is := by
  cases h : label? i <;> simp [ownLabels, h]

mutual

/-- The parts of an item hold its declarations, but for the one that it may be itself. -/
theorem labels_parts (around : Option (List Text)) (i : Item) :
    ((label? i).toList ++ (parts around i).flatMap Part.labels).Perm (labels i) := by
  cases i with
  | declaration d => exact .refl _
  | definition | call | mixin => exact .refl _
  | rule own body =>
    have hbody := labels_partsAll (some (Css.nestSelectors (around.getD []) own)) body
    rwa [parts, List.flatMap_append, Part.labels_ofBlock]
  | atRule name params body =>
    have hbody := labels_partsAll around body
    rw [parts, List.flatMap_cons, List.flatMap_append, List.flatMap_append, Part.labels_ofBlock]
    simpa [Part.labels, label?, labels] using hbody

theorem labels_partsAll (around : Option (List Text)) (is : List Item) :
    (ownLabels is ++ (partsAll around is).flatMap Part.labels).Perm (labelsAll is) := by
  cases is with
  | nil => exact .refl _
  | cons i is =>
    have hi := labels_parts around i
    have his := labels_partsAll around is
    rw [ownLabels_cons, partsAll, List.flatMap_append, labelsAll]
    calc (label? i).toList ++ ownLabels is ++
          ((parts around i).flatMap Part.labels ++ (partsAll around is).flatMap Part.labels)
      List.Perm _ ((label? i).toList ++ (parts around i).flatMap Part.labels ++
          (ownLabels is ++ (partsAll around is).flatMap Part.labels)) := by
        simp only [List.append_assoc, List.perm_append_left_iff]
        exact List.perm_append_comm_assoc ..
      List.Perm _ (labels i ++ labelsAll is) := hi.append his

end

mutual

theorem headings_parts (around : Option (List Text)) (i : Item) :
    (parts around i).filterMap Part.heading? = headings i := by
  cases i with
  | declaration | definition | call | mixin => rfl
  | rule own body =>
    rw [parts, List.filterMap_append, Part.heading?_ofBlock, headings_partsAll _ body]
    rfl
  | atRule name params body =>
    rw [parts, List.filterMap_cons, Part.heading?, List.filterMap_append, List.filterMap_append, Part.heading?_ofBlock,
      headings_partsAll around body, headings]
    simp [Part.heading?]

theorem headings_partsAll (around : Option (List Text)) (is : List Item) :
    (partsAll around is).filterMap Part.heading? = headingsAll is := by
  cases is with
  | nil => rfl
  | cons i is =>
    rw [partsAll, List.filterMap_append, headings_parts around i, headings_partsAll around is, headingsAll]

end

mutual

theorem labels_ne_nil_of_parts (around : Option (List Text)) (i : Item) {selectors : List Text} {ls : List Label}
    (h : .rule selectors ls ∈ parts around i) : ls ≠ [] := by
  cases i with
  | declaration | definition | call | mixin => exact nomatch h
  | rule own body =>
    rw [parts, List.mem_append] at h
    exact h.elim (Part.labels_ne_nil_of_ofBlock _ _) (labels_ne_nil_of_partsAll _ body)
  | atRule name params body =>
    simp only [parts, List.mem_cons, List.mem_append, reduceCtorEq, List.not_mem_nil, false_or, or_false] at h
    exact h.elim (Part.labels_ne_nil_of_ofBlock _ _) (labels_ne_nil_of_partsAll _ body)

theorem labels_ne_nil_of_partsAll (around : Option (List Text)) (is : List Item) {selectors : List Text}
    {ls : List Label} (h : .rule selectors ls ∈ partsAll around is) : ls ≠ [] := by
  cases is with
  | nil => exact nomatch h
  | cons i is =>
    rw [partsAll, List.mem_append] at h
    exact h.elim (labels_ne_nil_of_parts around i) (labels_ne_nil_of_partsAll around is)

end

end Item

namespace Statement

def parts : Statement → List Part
  | .directive d => [.directive d.name d.params]
  | s => s.toItem?.elim [] (Item.parts none)

def labels (s : Statement) : List Label := s.toItem?.elim [] Item.labels

def headings : Statement → List (Text × Text)
  | .directive d => [(d.name, d.params)]
  | s => s.toItem?.elim [] Item.headings

end Statement

namespace Sheet

/-- The parts of a sheet in the order of the text. -/
def parts (s : Sheet) : List Part := s.flatMap Statement.parts

/-- The declarations of a sheet in the order of the text, but for those in definitions of mixins. -/
def labels (s : Sheet) : List Label := s.flatMap Statement.labels

/-- The directives and at-rules of a sheet in the order of the text, but for those in definitions of mixins. -/
def headings (s : Sheet) : List (Text × Text) := s.flatMap Statement.headings

end Sheet

namespace Yield

theorem parts_underRule (selectors : List Text) (y : Yield) : Css.Node.partsAll (y.underRule selectors) =
    Part.ofBlock (some selectors) (y.properties.map Css.Property.label) ++ Css.Node.partsAll y.nodes := by
  cases h : y.properties with
  | nil => simp [underRule, h, Part.ofBlock]
  | cons p ps => simp [underRule, h, Part.ofBlock, Css.Node.partsAll, Css.Node.parts]

/-- An at-rule has properties of its own only outside of rules. -/
theorem parts_underAtRule {around : Option (List Text)} (haround : ∀ selectors ∈ around, selectors ≠ [])
    (name params : Text) (y : Yield) : (y.underAtRule name params (around.getD [])).parts =
      .enter name params :: (Part.ofBlock around (y.properties.map Css.Property.label) ++
        Css.Node.partsAll y.nodes ++ [.leave]) := by
  cases around with
  | none => simp [underAtRule, Css.Node.parts]
  | some selectors =>
    have hne : selectors.isEmpty = false := by simpa using haround selectors rfl
    rw [Option.getD_some, underAtRule, hne, if_neg (by simp), Css.Node.parts, parts_underRule]
    rfl

end Yield

/-- Every rule has a selector. -/
def Criterion.selected : Criterion where
  header h := ∀ selectors, h = .rule selectors → selectors ≠ []

theorem Sheet.selected_of_ofTokens {ts : List Token} {s : Sheet} (h : Sheet.ofTokens ts = .ok s) :
    ∀ x ∈ s, x.Meets .selected := by
  refine meets_of_ofTokens ⟨?_, fun _ _ _ _ _ => trivial, fun _ _ _ _ _ => trivial, fun _ _ _ _ _ _ => trivial,
    fun _ _ _ _ _ _ _ _ => trivial⟩ h
  rintro us _ inside - hlead selectors rfl
  cases us with
  | nil => exact nomatch hlead
  | cons t us =>
    cases Tokens.headedBy_of_lead? hlead with
    | rule hk hread => exact Tokens.readSelectors_ne_nil hread

theorem Css.nestSelectors_ne_nil (parents : List Text) {children : List Text} (h : children ≠ []) :
    nestSelectors parents children ≠ [] := by
  cases parents with
  | nil => exact h
  | cons p ps =>
    intro hnil
    cases children with
    | nil => exact h rfl
    | cons c cs => exact nomatch hnil

namespace Item

mutual

/-- What an item yields: the declaration that it may be, and nodes with its parts. -/
theorem yield_parts {calls : Expansion} {scopes : Scopes} {around : Option (List Text)} {i : Item} {y : Yield}
    (haround : ∀ selectors ∈ around, selectors ≠ []) (hfree : i.CallFree) (hi : i.Meets .selected)
    (h : yield calls scopes (around.getD []) i = .ok y) :
    y.properties.map Css.Property.label = (label? i).toList ∧ Css.Node.partsAll y.nodes = parts around i := by
  cases i with
  | declaration d =>
    obtain ⟨p, hp, rfl⟩ := map_eq_ok h
    obtain ⟨v, -, rfl⟩ := map_eq_ok hp
    exact ⟨rfl, rfl⟩
  | definition | mixin =>
    obtain rfl := Except.ok.inj h
    exact ⟨rfl, rfl⟩
  | call c => exact absurd hfree id
  | rule own body =>
    obtain ⟨z, hz, hy⟩ := bind_eq_ok h
    obtain rfl := Except.ok.inj hy
    have hselectors := Css.nestSelectors_ne_nil (around.getD []) (hi.1 own rfl)
    have hinside : ∀ selectors ∈ some (Css.nestSelectors (around.getD []) own), selectors ≠ [] := by
      rintro _ ⟨⟩
      exact hselectors
    obtain ⟨hproperties, hnodes⟩ := yieldAll_parts hinside hfree hi.2 hz
    refine ⟨rfl, ?_⟩
    rw [Yield.parts_underRule, hproperties, hnodes, parts]
  | atRule name params body =>
    obtain ⟨z, hz, hy⟩ := bind_eq_ok h
    obtain rfl := Except.ok.inj hy
    obtain ⟨hproperties, hnodes⟩ := yieldAll_parts haround hfree hi.2 hz
    refine ⟨rfl, ?_⟩
    rw [Css.Node.partsAll, Yield.parts_underAtRule haround, hproperties, hnodes, parts, Css.Node.partsAll, List.append_nil]

/-- What a body yields: its own declarations, and nodes with the parts nested in it. -/
theorem yieldAll_parts {calls : Expansion} {scopes : Scopes} {around : Option (List Text)} {is : List Item} {y : Yield}
    (haround : ∀ selectors ∈ around, selectors ≠ []) (hfree : CallFreeAll is) (his : MeetsAll .selected is)
    (h : yieldAll calls scopes (around.getD []) is = .ok y) :
    y.properties.map Css.Property.label = ownLabels is ∧ Css.Node.partsAll y.nodes = partsAll around is := by
  cases is with
  | nil =>
    obtain rfl := Except.ok.inj h
    exact ⟨rfl, rfl⟩
  | cons i is =>
    obtain ⟨z, hz, hrest⟩ := bind_eq_ok h
    obtain ⟨w, hw, hy⟩ := bind_eq_ok hrest
    obtain rfl := Except.ok.inj hy
    obtain ⟨hp, hn⟩ := yield_parts haround hfree.1 his.1 hz
    obtain ⟨hps, hns⟩ := yieldAll_parts haround hfree.2 his.2 hw
    constructor
    · change (z.properties ++ w.properties).map _ = _
      rw [List.map_append, hp, hps, ownLabels_cons]
    · change Css.Node.partsAll (z.nodes ++ w.nodes) = _
      rw [Css.Node.partsAll_append, hn, hns, partsAll]

end

end Item

theorem Statement.nodesOf_parts {calls : Expansion} {scopes : Scopes} {s : Statement} {ns : List Css.Node}
    (hfree : s.CallFree) (hs : s.Meets .selected) (h : Sheet.nodesOf calls scopes s = .ok ns) :
    Css.Node.partsAll ns = s.parts := by
  have hnone : ∀ selectors ∈ (none : Option (List Text)), selectors ≠ [] := nofun
  cases s with
  | directive d =>
    obtain rfl := Except.ok.inj h
    rfl
  | definition | mixin =>
    obtain rfl := Except.ok.inj h
    rfl
  | call c => exact absurd (hfree (.call c) rfl) id
  | rule | atRule =>
    obtain ⟨y, hy, rfl⟩ := map_eq_ok h
    exact (Item.yield_parts hnone (hfree _ rfl) (hs.toItem rfl) hy).2

namespace Sheet

theorem parts_of_evaluate {s : Sheet} {ns : List Css.Node} (hfree : ∀ x ∈ s, x.CallFree)
    (hs : ∀ x ∈ s, x.Meets .selected) (h : s.evaluate = .ok ns) : Css.Node.partsAll ns = s.parts := by
  obtain ⟨rows, hrows, rfl⟩ := map_eq_ok h
  generalize expand (Item.mixinNamesAll s.items) = calls at hrows
  generalize [Scope.ofItems s.items] = scopes at hrows
  clear h
  induction s generalizing rows with
  | nil =>
    obtain rfl := Except.ok.inj hrows
    rfl
  | cons x s ih =>
    rw [List.forall_mem_cons] at hfree hs
    obtain ⟨ns, others, hns, hothers, rfl⟩ := mapM_cons_eq_ok hrows
    rw [List.flatten_cons, Css.Node.partsAll_append, Statement.nodesOf_parts hfree.1 hs.1 hns,
      ih hfree.2 hs.2 others hothers]
    rfl

theorem labels_parts (s : Sheet) : (s.parts.flatMap Part.labels).Perm s.labels := by
  induction s with
  | nil => exact .refl _
  | cons x s ih =>
    have hx : (x.parts.flatMap Part.labels).Perm x.labels := by
      cases x with
      | directive | definition | call | mixin => exact .refl _
      | rule own body => exact Item.labels_parts none (.rule own body)
      | atRule name params body => exact Item.labels_parts none (.atRule name params body)
    rw [parts, labels, List.flatMap_cons, List.flatMap_append, List.flatMap_cons]
    exact hx.append ih

theorem headings_parts (s : Sheet) : s.parts.filterMap Part.heading? = s.headings := by
  induction s with
  | nil => rfl
  | cons x s ih =>
    have hx : x.parts.filterMap Part.heading? = x.headings := by
      cases x with
      | directive | definition | call | mixin => rfl
      | rule own body => exact Item.headings_parts none (.rule own body)
      | atRule name params body => exact Item.headings_parts none (.atRule name params body)
    rw [parts, headings, List.flatMap_cons, List.filterMap_append, List.flatMap_cons, hx]
    exact congrArg _ ih

theorem labels_ne_nil_of_parts {s : Sheet} {selectors : List Text} {ls : List Label}
    (h : .rule selectors ls ∈ s.parts) : ls ≠ [] := by
  obtain ⟨x, -, hx⟩ := List.mem_flatMap.mp h
  cases x with
  | directive | definition | call | mixin => simp [Statement.parts, Statement.toItem?, Item.parts] at hx
  | rule own body => exact Item.labels_ne_nil_of_parts none _ hx
  | atRule name params body => exact Item.labels_ne_nil_of_parts none _ hx

/-- A sheet without calls evaluates to a style sheet with the same parts in the same order: each block with
declarations of its own is one rule with the selectors around it, or is directly in its at-rule outside of rules. Its
declarations, directives and at-rules are those of the sheet outside of the definitions of mixins, each as often as
there. -/
theorem evaluate_parts {source : Text} {s : Sheet} {ns : List Css.Node} (hparse : parse source = .ok s)
    (hfree : ∀ x ∈ s, x.CallFree) (h : evaluate s = .ok ns) :
    Css.Node.partsAll ns = s.parts ∧
      (Css.Node.labelsAll ns).Perm s.labels ∧
      Css.Node.headingsAll ns = s.headings ∧
      ∀ selectors labels, .rule selectors labels ∈ Css.Node.partsAll ns → labels ≠ [] := by
  have hparts := parts_of_evaluate hfree (selected_of_ofTokens hparse) h
  refine ⟨hparts, ?_, ?_, ?_⟩
  · rw [← Css.Node.labels_partsAll, hparts]
    exact labels_parts s
  · rw [← Css.Node.headings_partsAll, hparts, headings_parts]
  · intro selectors labels hmem
    rw [hparts] at hmem
    exact labels_ne_nil_of_parts hmem

end Sheet

namespace Item

mutual

def decideCallFree : (i : Item) → Decidable i.CallFree
  | declaration _ | definition _ => .isTrue trivial
  | call _ => .isFalse id
  | rule _ body | atRule _ _ body | mixin _ _ body => decideCallFreeAll body

def decideCallFreeAll : (is : List Item) → Decidable (CallFreeAll is)
  | [] => .isTrue trivial
  | i :: is => @instDecidableAnd _ _ (decideCallFree i) (decideCallFreeAll is)

end

instance : DecidablePred CallFree := decideCallFree

end Item

instance : DecidablePred Statement.CallFree := fun s => inferInstanceAs (Decidable (∀ i ∈ s.toItem?, i.CallFree))

/-- The declarations of an at-rule inside of a rule are in a rule inside of the at-rule. -/
theorem Sheet.evaluate_parts_media :
    ∃ s ns, parse ".a \x7b b: c; @media x \x7b d: e !important; \x7d \x7d".toList = .ok s ∧ (∀ x ∈ s, x.CallFree) ∧
      evaluate s = .ok ns ∧ Css.Node.partsAll ns =
        [.rule [".a".toList] [("b".toList, false)], .enter "media".toList "x".toList,
          .rule [".a".toList] [("d".toList, true)], .leave] := by
  have hparsed : (parse ".a \x7b b: c; @media x \x7b d: e !important; \x7d \x7d".toList).toOption.any fun s =>
      (∀ x ∈ s, x.CallFree) ∧ (evaluate s).toOption.isSome ∧ s.parts =
        [.rule [".a".toList] [("b".toList, false)], .enter "media".toList "x".toList,
          .rule [".a".toList] [("d".toList, true)], .leave] := by
    decide +kernel
  obtain ⟨s, hs, hall⟩ := (Option.any_eq_true _ _).mp hparsed
  obtain ⟨hfree, hsome, hparts⟩ := of_decide_eq_true hall
  obtain ⟨ns, hns⟩ := Option.isSome_iff_exists.mp hsome
  have hparse := eq_ok_of_toOption hs
  have hevaluate := eq_ok_of_toOption hns
  exact ⟨s, ns, hparse, hfree, hevaluate, (evaluate_parts hparse hfree hevaluate).1.trans hparts⟩

end LessCss
