import Mathlib.Algebra.Group.Nat.Defs
import Mathlib.Data.List.Forall2
import LessCss.Proofs.Sheet.Selectors
import LessCss.Proofs.Token.Blanks
/-!
The selectors of rules inside rules, level by level.

Each level adds selectors of its own to those of the levels around it. If none of them refers to its parent, the
selectors of all levels are the choices of one from each level, the outermost first, in lexicographic order
(`isProduct_combined`).
-/
namespace LessCss

namespace Css

/-- One member of each list, in every way. The member of the first list changes last. -/
def choices {α : Type} : List (List α) → List (List α)
  | [] => [[]]
  | own :: inner => own.flatMap fun a => (choices inner).map (a :: ·)

/-- The positions of the members that are chosen. -/
def positions {α : Type} (levels : List (List α)) : List (List Nat) :=
  choices (levels.map fun own => List.range own.length)

/-- The selectors at the given positions, level by level. -/
def pick (levels : List (List Text)) (ix : List Nat) : List Text := List.zipWith (fun own i => own.getD i []) levels ix

section

variable {α : Type} {levels : List (List α)} {ix : List Nat}

theorem length_choices (levels : List (List α)) : (choices levels).length = (levels.map List.length).prod := by
  induction levels with
  | nil => rfl
  | cons own inner ih => simp [choices, List.length_flatMap, ih]

theorem positions_cons (own : List α) (inner : List (List α)) : positions (own :: inner) =
    (List.range own.length).flatMap fun i => (positions inner).map (i :: ·) := rfl

theorem mem_positions : ix ∈ positions levels ↔ List.Forall₂ (fun i own => i < own.length) ix levels := by
  induction levels generalizing ix with
  | nil => simp [positions, choices]
  | cons own inner ih =>
    simp only [positions_cons, List.mem_flatMap, List.mem_range, List.mem_map]
    constructor
    · rintro ⟨i, hi, js, hjs, rfl⟩
      exact .cons hi (ih.mp hjs)
    · rintro (_ | ⟨hi, hjs⟩)
      exact ⟨_, hi, _, ih.mpr hjs, rfl⟩

/-- The positions are listed in lexicographic order. -/
theorem pairwise_positions (levels : List (List α)) : (positions levels).Pairwise (· < ·) := by
  induction levels with
  | nil => exact List.pairwise_singleton _ _
  | cons own inner ih =>
    rw [positions_cons, List.pairwise_flatMap]
    refine ⟨fun i _ => ?_, (List.pairwise_lt_range).imp fun hij a ha b hb => ?_⟩
    · rw [List.pairwise_map]
      exact ih.imp fun h => List.cons_lt_cons_iff.mpr (.inr ⟨rfl, h⟩)
    · obtain ⟨as, -, rfl⟩ := List.mem_map.mp ha
      obtain ⟨bs, -, rfl⟩ := List.mem_map.mp hb
      exact List.cons_lt_cons_iff.mpr (.inl hij)

end

theorem map_getD_range (own : List Text) : (List.range own.length).map (fun i => own.getD i []) = own := by
  refine List.ext_getElem (by simp) fun i _ hi => ?_
  simp [hi]

theorem choices_eq_picks (levels : List (List Text)) : choices levels = (positions levels).map (pick levels) := by
  induction levels with
  | nil => rfl
  | cons own inner ih =>
    have hpick : ∀ i, pick (own :: inner) ∘ (i :: ·) = (own.getD i [] :: ·) ∘ pick inner := fun _ => rfl
    calc choices (own :: inner)
      _ = ((List.range own.length).map fun i => own.getD i []).flatMap fun a => (choices inner).map (a :: ·) := by
          rw [map_getD_range, choices]
      _ = (positions (own :: inner)).map (pick (own :: inner)) := by
          rw [ih, positions_cons, List.map_flatMap, List.flatMap_map]
          simp only [List.map_map, hpick]

end Css

/-- No blank stands at either end of a text, and the text is not empty. -/
structure Text.Trimmed (t : Text) : Prop where
  ne_nil : t ≠ []
  head : ∀ c ∈ t.head?, isBlank c = false
  last : ∀ c ∈ t.getLast?, isBlank c = false

namespace Text.Trimmed

variable {t u : Text}

theorem trim_eq (h : Trimmed t) : trim t = t := by
  have hstart : trimStart t = t := by
    obtain ⟨c, cs, rfl⟩ := List.exists_cons_of_ne_nil h.ne_nil
    exact trimStart_append_cons (h.head c rfl) [] cs
  have hend : trimEnd t = t := by
    obtain ⟨init, c, rfl⟩ : ∃ init c, t = init ++ [c] :=
      ⟨t.dropLast, t.getLast h.ne_nil, (List.dropLast_append_getLast h.ne_nil).symm⟩
    exact trimEnd_append_cons (h.last c (by simp)) init []
  rw [trim, hstart, hend]

theorem spaced (ht : Trimmed t) (hu : Trimmed u) : Trimmed (t ++ ' ' :: u) where
  ne_nil := by simp
  head := by
    obtain ⟨c, cs, rfl⟩ := List.exists_cons_of_ne_nil ht.ne_nil
    exact ht.head
  last := by
    rw [List.getLast?_append, List.getLast?_cons]
    obtain ⟨d, hd⟩ := Option.ne_none_iff_exists'.mp (mt List.getLast?_eq_none_iff.mp hu.ne_nil)
    have hlast := hu.last
    rw [hd] at hlast ⊢
    exact hlast

end Text.Trimmed

namespace Css

/-- A selector without an `&` and without blanks at its ends. -/
structure Standalone (t : Text) : Prop where
  no_reference : '&' ∉ t
  head : ∀ c ∈ t.head?, Text.isBlank c = false
  last : ∀ c ∈ t.getLast?, Text.isBlank c = false

instance (t : Text) : Decidable (Standalone t) :=
  decidable_of_iff ('&' ∉ t ∧ t.head?.any Text.isBlank = false ∧ t.getLast?.any Text.isBlank = false)
    ⟨fun ⟨h, hhead, hlast⟩ => ⟨h, (Option.any_eq_false ..).mp hhead, (Option.any_eq_false ..).mp hlast⟩,
      fun h => ⟨h.no_reference, (Option.any_eq_false ..).mpr h.head, (Option.any_eq_false ..).mpr h.last⟩⟩

theorem Standalone.trimmed {t : Text} (h : Standalone t) (hne : t ≠ []) : Text.Trimmed t := ⟨hne, h.head, h.last⟩

/-- There are selectors on every level, and none of them is empty. -/
def Spelled (levels : List (List Text)) : Prop := ∀ own ∈ levels, own ≠ [] ∧ ∀ t ∈ own, t ≠ []

/-- The selectors of all levels in one, as the evaluation of rules inside rules combines them. -/
def combined (levels : List (List Text)) : List Text := levels.foldl nestSelectors []

theorem combined_concat (levels : List (List Text)) (own : List Text) :
    combined (levels ++ [own]) = nestSelectors (combined levels) own := List.foldl_concat ..

theorem nestSelector_standalone {parent child : Text} (hp : Text.Trimmed parent) (hc : Text.Trimmed child)
    (hreference : '&' ∉ child) : nestSelector parent child = parent ++ ' ' :: child := by
  rw [nestSelector, if_neg (by simpa using hreference), hp.trim_eq, hc.trim_eq]

theorem join_spaced (t u : Text) (us : List Text) :
    Text.join [' '] ((t ++ ' ' :: u) :: us) = Text.join [' '] (t :: u :: us) := by
  cases us <;> simp [Text.join, List.intercalate_cons_cons]

/-- Selectors that have been combined stay whole in front of each choice from the levels below. -/
theorem foldl_nestSelectors {parents : List Text} {levels : List (List Text)} (hparents : ∀ p ∈ parents, Text.Trimmed p)
    (hne : parents ≠ []) (hspelled : Spelled levels) (hlevels : ∀ own ∈ levels, ∀ t ∈ own, Standalone t) :
    levels.foldl nestSelectors parents =
      parents.flatMap fun p => (choices levels).map fun chosen => Text.join [' '] (p :: chosen) := by
  induction levels generalizing parents with
  | nil =>
    rw [List.foldl_nil, choices]
    simp [Text.join]
  | cons own inner ih =>
    obtain ⟨⟨hown, hfilled⟩, hspelled⟩ := List.forall_mem_cons.mp hspelled
    obtain ⟨hstandalone, hlevels⟩ := List.forall_mem_cons.mp hlevels
    have htrimmed : ∀ t ∈ own, Text.Trimmed t := fun t ht => (hstandalone t ht).trimmed (hfilled t ht)
    have hnest : nestSelectors parents own = parents.flatMap fun p => own.map fun t => p ++ ' ' :: t := by
      rw [nestSelectors_eq hne]
      refine List.flatMap_congr fun p hp => List.map_congr_left fun t ht => ?_
      exact nestSelector_standalone (hparents p hp) (htrimmed t ht) (hstandalone t ht).no_reference
    rw [List.foldl_cons, ih ?_ ?_ hspelled hlevels, hnest, List.flatMap_assoc]
    · refine List.flatMap_congr fun p _ => ?_
      rw [choices, List.flatMap_map, List.map_flatMap]
      refine List.flatMap_congr fun t _ => ?_
      rw [List.map_map]
      exact List.map_congr_left fun chosen _ => join_spaced p t chosen
    · rw [hnest]
      intro q hq
      obtain ⟨p, hp, hq⟩ := List.mem_flatMap.mp hq
      obtain ⟨t, ht, rfl⟩ := List.mem_map.mp hq
      exact (hparents p hp).spaced (htrimmed t ht)
    · rw [hnest]
      obtain ⟨p, hp⟩ := List.exists_mem_of_ne_nil _ hne
      obtain ⟨t, ht⟩ := List.exists_mem_of_ne_nil _ hown
      exact List.ne_nil_of_mem (List.mem_flatMap.mpr ⟨p, hp, List.mem_map_of_mem ht⟩)

/-- There is one selector for each choice of one selector from every level: the chosen ones from the outermost in,
parted by single spaces. The choices are listed in lexicographic order, the outermost level first. -/
structure IsProduct (levels : List (List Text)) (selectors : List Text) : Prop where
  length : selectors.length = (levels.map List.length).prod
  choices : ∃ positions : List (List Nat), positions.Pairwise (· < ·) ∧
    (∀ ix, ix ∈ positions ↔ List.Forall₂ (fun i own => i < own.length) ix levels) ∧
    selectors = positions.map fun ix => Text.join [' '] (pick levels ix)

theorem isProduct_combined {levels : List (List Text)} (hne : levels ≠ []) (hspelled : Spelled levels)
    (hlevels : ∀ own ∈ levels, ∀ t ∈ own, Standalone t) : IsProduct levels (combined levels) := by
  have hchoices : combined levels = (choices levels).map (Text.join [' ']) := by
    obtain ⟨own, inner, rfl⟩ := List.exists_cons_of_ne_nil hne
    obtain ⟨⟨hown, hfilled⟩, hspelled⟩ := List.forall_mem_cons.mp hspelled
    obtain ⟨hstandalone, hlevels⟩ := List.forall_mem_cons.mp hlevels
    have htrimmed : ∀ t ∈ own, Text.Trimmed t := fun t ht => (hstandalone t ht).trimmed (hfilled t ht)
    have hfold := foldl_nestSelectors htrimmed hown hspelled hlevels
    rw [choices, List.map_flatMap]
    simp only [List.map_map]
    exact hfold
  rw [hchoices]
  refine ⟨?_, positions levels, pairwise_positions levels, fun _ => mem_positions, ?_⟩
  · rw [List.length_map, length_choices]
  · rw [choices_eq_picks, List.map_map]
    rfl

end Css

end LessCss
