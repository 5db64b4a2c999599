import LessCss.File.Path
/-!
The names along a path and along the path of its directory.

Slashes cut a path into names, and `Text.join` puts them together again (`names_join`). A path that ends in a name has
a directory, whose path passes the same names but the last, as far as they count (`names_parent`).
-/
namespace LessCss.Path

variable {path t : Text} {n : Text} {ns : List Text}

theorem names_ne_nil (t : Text) : names t ≠ [] := by
  cases t with
  | nil => exact List.cons_ne_nil _ _
  | cons c cs =>
    unfold names
    split
    · exact List.cons_ne_nil _ _
    · split <;> exact List.cons_ne_nil _ _

theorem names_slash (t : Text) : names ('/' :: t) = [] :: names t := if_pos rfl

theorem names_cons {c : Char} (hc : c ≠ '/') (h : names t = n :: ns) : names (c :: t) = (c :: n) :: ns := by
  rw [names, if_neg hc, h]

theorem slash_not_mem_names (h : n ∈ names t) : '/' ∉ n := by
  induction t generalizing n with
  | nil =>
    obtain rfl := List.mem_singleton.mp h
    exact List.not_mem_nil
  | cons c cs ih =>
    by_cases hc : c = '/'
    · subst hc
      rw [names_slash] at h
      rcases List.mem_cons.mp h with rfl | h
      · exact List.not_mem_nil
      · exact ih h
    · obtain ⟨m, ms, hms⟩ := List.exists_cons_of_ne_nil (names_ne_nil cs)
      rw [names_cons hc hms] at h
      rw [hms] at ih
      rcases List.mem_cons.mp h with rfl | h
      · have hm := ih List.mem_cons_self
        rw [List.mem_cons, not_or]
        exact ⟨Ne.symm hc, hm⟩
      · exact ih (.tail _ h)

theorem names_append_slash (a t : Text) : names (a ++ '/' :: t) = names a ++ names t := by
  induction a with
  | nil => exact names_slash t
  | cons c a ih =>
    by_cases hc : c = '/'
    · subst hc
      rw [List.cons_append, names_slash, names_slash, ih, List.cons_append]
    · obtain ⟨m, ms, hms⟩ := List.exists_cons_of_ne_nil (names_ne_nil a)
      rw [hms, List.cons_append] at ih
      rw [List.cons_append, names_cons hc ih, names_cons hc hms, List.cons_append]

theorem names_of_not_mem (h : '/' ∉ n) : names n = [n] := by
  induction n with
  | nil => rfl
  | cons c n ih =>
    rw [List.mem_cons, not_or] at h
    exact names_cons (Ne.symm h.1) (ih h.2)

theorem join_singleton (n : Text) : Text.join ['/'] [n] = n := by simp [Text.join]

theorem join_cons_cons (m n : Text) (ns : List Text) :
    Text.join ['/'] (m :: n :: ns) = m ++ '/' :: Text.join ['/'] (n :: ns) := by
  simp [Text.join, List.intercalate_cons_cons]

/-- Names that are joined by slashes are cut out again. -/
theorem names_join (hne : ns ≠ []) (hns : ∀ n ∈ ns, '/' ∉ n) : names (Text.join ['/'] ns) = ns := by
  induction ns with
  | nil => exact absurd rfl hne
  | cons n ns ih =>
    rw [List.forall_mem_cons] at hns
    cases ns with
    | nil =>
      rw [join_singleton]
      exact names_of_not_mem hns.1
    | cons m ms =>
      rw [join_cons_cons, names_append_slash, names_of_not_mem hns.1, ih (by simp) hns.2, List.singleton_append]

/-- What is joined begins as its first part does. -/
theorem exists_join_cons (c : Char) (n : Text) (ns : List Text) : ∃ t, Text.join ['/'] ((c :: n) :: ns) = c :: t := by
  cases ns with
  | nil => exact ⟨n, join_singleton _⟩
  | cons m ms => exact ⟨_, join_cons_cons _ m ms⟩

/-- A path that does not end in an empty name has no slashes at its end. -/
theorem stem_of_getLast? (h : (names path).getLast? ≠ some []) : stem path = path := by
  have hlast : path.getLast? ≠ some '/' := by
    intro hslash
    obtain ⟨a, rfl⟩ := List.getLast?_eq_some_iff.mp hslash
    exact h (by rw [names_append_slash, names]; simp)
  have hdrop : path.reverse.dropWhile (· = '/') = path.reverse := by
    cases hrev : path.reverse with
    | nil => rfl
    | cons c cs =>
      refine List.dropWhile_cons_of_neg fun hc => hlast ?_
      rw [← List.head?_reverse, hrev, List.head?_cons, of_decide_eq_true hc]
  rw [stem, hdrop, List.reverse_reverse]

/-- The slashes at its end apart, a path has no other names. -/
theorem mem_names_stem (h : n ∈ names (stem path)) : n ∈ names path := by
  have hpath : stem path ++ (path.reverse.takeWhile (· = '/')).reverse = path := by
    rw [stem, ← List.reverse_append, List.takeWhile_append_dropWhile, List.reverse_reverse]
  cases hslashes : (path.reverse.takeWhile (· = '/')).reverse with
  | nil =>
    rw [hslashes, List.append_nil] at hpath
    rwa [hpath] at h
  | cons c cs =>
    have hc : c ∈ path.reverse.takeWhile (· = '/') := by
      rw [← List.mem_reverse, hslashes]
      exact List.mem_cons_self
    obtain rfl := of_decide_eq_true (List.all_eq_true.mp List.all_takeWhile c hc)
    rw [← hpath, hslashes, names_append_slash]
    exact List.mem_append_left _ h

/-- Whether a name counts on the way: it is not empty and no single dot. -/
def counts (n : Text) : Bool := !n.isEmpty && n ≠ ['.']

theorem filter_counts (ns : List Text) : (ns.filter counts).filter counts = ns.filter counts := by
  rw [List.filter_filter]
  simp

theorem mem_filter_counts (h : n ∈ ns.filter counts) : n ∈ ns ∧ n ≠ [] := by
  obtain ⟨hn, hcounts⟩ := List.mem_filter.mp h
  refine ⟨hn, ?_⟩
  rintro rfl
  exact nomatch hcounts

/-- The parts of a path that ends in a name that counts. -/
theorem parts_of_names (h : names path = ns ++ [n]) (hn : counts n = true) :
    ∃ xs, parts path = xs ++ [n] ∧ xs.filter counts = ns.filter counts ∧ ∀ x ∈ xs, x ∈ ns ∧ x ≠ [] := by
  have hlast : ∀ ms : List Text, (ms ++ [n]).filter counts = ms.filter counts ++ [n] := fun ms => by
    rw [List.filter_append, List.filter_cons_of_pos hn, List.filter_nil]
  cases habsolute : isAbsolute path with
  | true =>
    refine ⟨ns.filter counts, ?_, filter_counts ns, fun _ => mem_filter_counts⟩
    unfold parts
    rw [habsolute, if_pos rfl, h]
    exact hlast ns
  | false =>
    unfold parts
    rw [habsolute, if_neg (by simp), h]
    cases ns with
    | nil =>
      have hne : n.isEmpty = false := by
        cases n with
        | nil => exact nomatch hn
        | cons => rfl
      exact ⟨[], by simp [hne], rfl, nofun⟩
    | cons m ms =>
      refine ⟨(if m.isEmpty then [] else [m]) ++ ms.filter counts, ?_, ?_, ?_⟩
      · rw [List.append_assoc, ← hlast ms]
        rfl
      · rw [List.filter_append, filter_counts]
        cases m with
        | nil => rfl
        | cons c m => exact (List.filter_append ..).symm
      · intro x hx
        rcases List.mem_append.mp hx with hx | hx
        · cases m with
          | nil => exact nomatch hx
          | cons c m =>
            obtain rfl := List.mem_singleton.mp hx
            exact ⟨List.mem_cons_self, List.cons_ne_nil c m⟩
        · exact ⟨.tail m (mem_filter_counts hx).1, (mem_filter_counts hx).2⟩

/-- The path of the directory of a path, by the parts of the path. -/
theorem parent_of_parts {xs : List Text} (h : parts path = xs ++ [n]) : parent path =
    if isAbsolute path then '/' :: Text.join ['/'] xs
    else if (Text.join ['/'] xs).isEmpty then ['.'] else Text.join ['/'] xs := by
  have hrange : (List.range (xs ++ [n]).length).reverse = xs.length :: (List.range xs.length).reverse := by
    rw [List.length_append, List.length_singleton, List.range_succ, List.reverse_append, List.reverse_singleton,
      List.singleton_append]
  have htake : (xs ++ [n]).take xs.length = xs := List.take_left
  simp only [parent, ancestors, h, hrange, List.map_cons, htake]
  cases isAbsolute path with
  | true => rfl
  | false => rfl

/-- The path of its directory passes the names of a path but the last, as far as they count. -/
theorem names_parent (h : names path = ns ++ [n]) (hn : counts n = true) :
    (names (parent path)).filter counts = ns.filter counts ∧ isAbsolute (parent path) = isAbsolute path ∧
      parent path ≠ [] := by
  obtain ⟨xs, hparts, hxs, hmem⟩ := parts_of_names h hn
  rw [parent_of_parts hparts, ← hxs]
  have hslash : ∀ x ∈ xs, '/' ∉ x := fun x hx =>
    slash_not_mem_names (t := path) (h ▸ List.mem_append_left _ (hmem x hx).1)
  cases xs with
  | nil =>
    cases isAbsolute path with
    | true => exact ⟨rfl, rfl, List.cons_ne_nil _ _⟩
    | false => exact ⟨rfl, rfl, List.cons_ne_nil _ _⟩
  | cons x xs =>
    have hnames := names_join (List.cons_ne_nil x xs) hslash
    cases habsolute : isAbsolute path with
    | true =>
      rw [if_pos rfl, names_slash, hnames]
      exact ⟨rfl, rfl, List.cons_ne_nil _ _⟩
    | false =>
      obtain ⟨c, y, rfl⟩ := List.exists_cons_of_ne_nil (hmem x List.mem_cons_self).2
      obtain ⟨t, ht⟩ := exists_join_cons c y xs
      have hc : c ≠ '/' := fun hc => hslash _ List.mem_cons_self (hc ▸ List.mem_cons_self)
      rw [if_neg (by simp), ht, if_neg (by simp), ← ht, hnames]
      exact ⟨rfl, by simp [ht, isAbsolute, hc], by simp [ht]⟩

end LessCss.Path
