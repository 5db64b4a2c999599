import LessCss.File.System
import LessCss.Proofs.File.Path
import LessCss.Proofs.Outcome
/-!
File systems that differ at one place.

A path that does not pass the place leads where it led before (`walk_put`), so what it finds there is the same. Where a
new file may be written, every name may be used for one (`exists_of_target`).
-/
namespace LessCss.FileSystem

variable {fs : FileSystem} {p q here : Place} {e e' : Entry} {n name path : Text} {ns : List Text}

theorem lookup_filter (h : q ≠ p) (es : List (Place × Entry)) : (es.filter (·.1 ≠ p)).lookup q = es.lookup q := by
  induction es with
  | nil => rfl
  | cons f es ih =>
    by_cases hf : f.1 = p
    · rw [List.filter_cons_of_neg (by simp [hf]), ih, List.lookup_cons]
      have hq : (q == f.1) = false := by simpa [hf] using h
      rw [hq]
    · rw [List.filter_cons_of_pos (by simp [hf]), List.lookup_cons, List.lookup_cons, ih]

@[simp] theorem entry?_put_self (fs : FileSystem) (p : Place) (e : Entry) : FileSystem.entry? (fs.put p e) p = some e := by
  simp [FileSystem.entry?, put]

theorem entry?_put (h : q ≠ p) : FileSystem.entry? (fs.put p e) q = fs.entry? q := by
  have hq : (q == p) = false := by simpa using h
  rw [FileSystem.entry?, put, List.lookup_cons, hq]
  exact lookup_filter h fs.entries

@[simp] theorem put_put (fs : FileSystem) (p : Place) (e e' : Entry) : (fs.put p e).put p e' = fs.put p e' := by
  simp [put]

/-- A new entry that is taken away leaves nothing. -/
theorem remove_put (h : fs.entry? p = none) : (fs.put p e).remove p = fs := by
  have hentries : fs.entries.filter (·.1 ≠ p) = fs.entries := by
    rw [List.filter_eq_self]
    intro f hf
    have hkey := List.lookup_eq_none_iff.mp h f hf
    refine decide_eq_true fun hp => ?_
    rw [hp] at hkey
    simp at hkey
  have hput : ((p, e) :: fs.entries).filter (·.1 ≠ p) = fs.entries := by
    rw [List.filter_cons_of_neg (by simp), hentries]
  rw [remove, put, hentries, hput]

@[simp] theorem refusal_put (fs : FileSystem) (p : Place) (e : Entry) : (fs.put p e).refusal = fs.refusal := rfl

@[simp] theorem allow_put (fs : FileSystem) (p : Place) (e : Entry) (a : FileAction) (q : Place) :
    (fs.put p e).allow a q = fs.allow a q := rfl

/-- One step leads on from a directory, and only from there. -/
theorem enter_eq_ok (h : fs.enter here n = .ok p) : (∃ mode, fs.entry? here = some (.directory mode)) ∧
    p = if n.isEmpty ∨ n = ['.'] then here else if n = ['.', '.'] then here.dropLast else here ++ [n] := by
  unfold enter at h
  split at h
  · exact nomatch h
  · exact nomatch h
  · next mode hmode => exact ⟨⟨mode, hmode⟩, (Except.ok.inj h).symm⟩

theorem enter_put (h : here ≠ p) : (fs.put p e).enter here n = fs.enter here n := by
  rw [enter, enter, entry?_put h]

theorem enter_avoids (hhere : name ∉ here) (hn : n ≠ name) (h : fs.enter here n = .ok p) : name ∉ p := by
  rw [(enter_eq_ok h).2]
  split
  · exact hhere
  · split
    · exact fun hmem => hhere (List.dropLast_subset _ hmem)
    · rw [List.mem_append, List.mem_singleton, not_or]
      exact ⟨hhere, Ne.symm hn⟩

/-- A walk from a place without a name along other names does not come to the name. -/
theorem walk_avoids (hhere : name ∉ here) (hns : name ∉ ns) (h : ns.foldlM fs.enter here = .ok q) : name ∉ q := by
  induction ns generalizing here with
  | nil =>
    obtain rfl := Except.ok.inj h
    exact hhere
  | cons n ns ih =>
    rw [List.mem_cons, not_or] at hns
    obtain ⟨next, hstep, h⟩ := bind_eq_ok h
    exact ih (enter_avoids hhere (Ne.symm hns.1) hstep) hns.2 h

/-- So it does not pass a place with the name in it. -/
theorem walk_put (hp : name ∈ p) (hhere : name ∉ here) (hns : name ∉ ns) :
    ns.foldlM (fs.put p e).enter here = ns.foldlM fs.enter here := by
  induction ns generalizing here with
  | nil => rfl
  | cons n ns ih =>
    rw [List.mem_cons, not_or] at hns
    have hne : here ≠ p := by
      rintro rfl
      exact hhere hp
    rw [List.foldlM_cons, List.foldlM_cons, enter_put hne]
    cases hstep : fs.enter here n with
    | error f => rfl
    | ok next => exact ih (enter_avoids hhere (Ne.symm hns.1) hstep) hns.2

theorem enter_error {f : FileFault} (h : fs.enter here n = .error f) (m : Text) : fs.enter here m = .error f := by
  unfold enter at h ⊢
  split at h
  · exact h
  · exact h
  · exact nomatch h

theorem walk_concat (ns : List Text) (n : Text) (here : Place) :
    (ns ++ [n]).foldlM fs.enter here = ns.foldlM fs.enter here >>= fun next => fs.enter next n := by
  rw [List.foldlM_append]
  refine congrArg _ (funext fun next => ?_)
  rw [List.foldlM_cons]
  cases fs.enter next n <;> rfl

/-- Before a last name, names that do not count make no difference. -/
theorem walk_counts (ns : List Text) (n : Text) (here : Place) :
    (ns ++ [n]).foldlM fs.enter here = (ns.filter Path.counts ++ [n]).foldlM fs.enter here := by
  induction ns generalizing here with
  | nil => rfl
  | cons m ns ih =>
    cases hm : Path.counts m with
    | true =>
      rw [List.filter_cons_of_pos hm, List.cons_append, List.cons_append, List.foldlM_cons, List.foldlM_cons]
      exact congrArg _ (funext ih)
    | false =>
      rw [List.filter_cons_of_neg (by simp [hm]), List.cons_append, List.foldlM_cons]
      cases hstep : fs.enter here m with
      | error f =>
        obtain ⟨k, ks, hk⟩ := List.exists_cons_of_ne_nil (l := ns.filter Path.counts ++ [n]) (by simp)
        rw [hk, List.foldlM_cons, enter_error hstep k]
        rfl
      | ok next =>
        have hnext : next = here := by
          rw [(enter_eq_ok hstep).2]
          exact if_pos (by simpa [Path.counts, Decidable.or_iff_not_imp_left] using hm)
        rw [hnext]
        exact ih here

/-- Where there are the same directories, a walk leads to the same place. -/
theorem walk_mono {fs' : FileSystem}
    (hfs : ∀ p mode, fs.entry? p = some (.directory mode) → fs'.entry? p = some (.directory mode))
    (h : ns.foldlM fs.enter here = .ok q) : ns.foldlM fs'.enter here = .ok q := by
  induction ns generalizing here with
  | nil => exact h
  | cons n ns ih =>
    obtain ⟨next, hstep, hwalk⟩ := bind_eq_ok h
    obtain ⟨mode, hmode⟩ := (enter_eq_ok hstep).1
    have hstep' : fs'.enter here n = .ok next := by
      rw [← hstep, enter, enter, hfs here mode hmode, hmode]
    rw [List.foldlM_cons, hstep']
    exact ih hwalk

theorem not_mem_origin (hhere : name ∉ fs.workingDirectory) (path : Text) : name ∉ fs.origin path := by
  unfold origin
  split
  · exact List.not_mem_nil
  · exact hhere

theorem locate_avoids (hhere : name ∉ fs.workingDirectory) (hpath : name ∉ Path.names path)
    (h : fs.locate path = .ok q) : name ∉ q := by
  unfold locate at h
  split at h
  · exact nomatch h
  · exact walk_avoids (not_mem_origin hhere path) hpath h

section Added

variable (hp : name ∈ p) (hhere : name ∉ fs.workingDirectory) (hpath : name ∉ Path.names path)

include hp hhere hpath

theorem locate_put : (fs.put p e).locate path = fs.locate path := by
  unfold locate
  split
  · rfl
  · exact walk_put hp (not_mem_origin hhere path) hpath

/-- A path finds what it found before, if it does not have the name of the new file in it. -/
theorem find_put : (fs.put p e).find path = fs.find path := by
  rw [find, find, locate_put hp hhere hpath]
  cases hlocate : fs.locate path with
  | error f => rfl
  | ok q =>
    have hne : q ≠ p := by
      rintro rfl
      exact locate_avoids hhere hpath hlocate hp
    rw [ok_bind, ok_bind, entry?_put hne]

/-- A file may be written where it might have been written before. -/
theorem target_put : (fs.put p e).target path = fs.target path := by
  have hstem : name ∉ Path.names (Path.stem path) := fun h => hpath (Path.mem_names_stem h)
  have hnew : (fs.put p e).locateNew path = fs.locateNew path := by
    unfold locateNew
    split
    · rfl
    · exact walk_put hp (not_mem_origin hhere path) hstem
  rw [target, target, hnew]
  cases hlocate : fs.locateNew path with
  | error f => rfl
  | ok q =>
    have hne : q ≠ p := by
      rintro rfl
      unfold locateNew at hlocate
      split at hlocate
      · exact nomatch hlocate
      · exact walk_avoids (not_mem_origin hhere path) hstem hlocate hp
    rw [ok_bind, ok_bind, entry?_put hne]

end Added

section Over

variable {content : ByteArray} {mode : Nat} (hp : ∀ mode, fs.entry? p ≠ some (.directory mode))

include hp

/-- A file that is put where there is no directory changes no way. -/
theorem locate_put_file : (fs.put p (.file content mode)).locate path = .ok q ↔ fs.locate path = .ok q := by
  have hgone : ∀ r m, FileSystem.entry? (fs.put p (.file content mode)) r = some (.directory m) →
      fs.entry? r = some (.directory m) := by
    intro r m hr
    by_cases hrp : r = p
    · subst hrp
      rw [entry?_put_self] at hr
      exact nomatch Option.some.inj hr
    · rwa [entry?_put hrp] at hr
  have hkept : ∀ r m, fs.entry? r = some (.directory m) →
      FileSystem.entry? (fs.put p (.file content mode)) r = some (.directory m) := by
    intro r m hr
    have hrp : r ≠ p := by
      rintro rfl
      exact hp m hr
    rwa [entry?_put hrp]
  unfold locate
  split
  · exact Iff.rfl
  · exact ⟨walk_mono hgone, walk_mono hkept⟩

/-- A path that leads elsewhere finds what it found before. -/
theorem find_put_file (h : fs.locate path ≠ .ok p) :
    ((fs.put p (.file content mode)).find path).toOption = (fs.find path).toOption := by
  rw [find, find]
  cases hlocate : fs.locate path with
  | ok q =>
    have hne : q ≠ p := by
      rintro rfl
      exact h hlocate
    rw [(locate_put_file hp).mpr hlocate, ok_bind, ok_bind, entry?_put hne]
  | error f =>
    cases hput : (fs.put p (.file content mode)).locate path with
    | error f' => rfl
    | ok q =>
      rw [(locate_put_file hp).mp hput] at hlocate
      contradiction

end Over

/-- A path that leads into a directory and ends in a name for files. -/
structure EndsIn (fs : FileSystem) (path : Text) (directory : Place) (n : Text) : Prop where
  names : ∃ ns, Path.names path = ns ++ [n] ∧ ns.foldlM fs.enter (fs.origin path) = .ok directory
  inside : ∃ mode, fs.entry? directory = some (.directory mode)
  forFile : isFileName n = true

theorem ne_of_isFileName (h : isFileName n = true) : n ≠ [] ∧ n ≠ ['.'] ∧ n ≠ ['.', '.'] := by
  simpa [isFileName, and_assoc] using h

theorem enter_isFileName {mode : Nat} (h : fs.entry? here = some (.directory mode)) (hn : isFileName n = true) :
    fs.enter here n = .ok (here ++ [n]) := by
  obtain ⟨hempty, hdot, hdots⟩ := ne_of_isFileName hn
  rw [enter, h]
  simp [hempty, hdot, hdots]

theorem EndsIn.walk {directory : Place} (h : fs.EndsIn path directory n) :
    (Path.names path).foldlM fs.enter (fs.origin path) = .ok (directory ++ [n]) := by
  obtain ⟨ns, hns, hwalk⟩ := h.names
  obtain ⟨mode, hmode⟩ := h.inside
  rw [hns, walk_concat, hwalk]
  exact enter_isFileName hmode h.forFile

theorem EndsIn.path_ne_nil {directory : Place} (h : fs.EndsIn path directory n) : path ≠ [] := by
  rintro rfl
  obtain ⟨ns, hns, -⟩ := h.names
  have hlast := congrArg List.getLast? hns
  rw [List.getLast?_concat] at hlast
  exact (ne_of_isFileName h.forFile).1 (Option.some.inj hlast).symm

theorem EndsIn.locate {directory : Place} (h : fs.EndsIn path directory n) :
    fs.locate path = .ok (directory ++ [n]) := by
  rw [FileSystem.locate, if_neg (by simpa using h.path_ne_nil)]
  exact h.walk

/-- The place of a file that may be written. -/
theorem target_eq_ok (h : fs.target path = .ok q) : ∃ directory n, fs.EndsIn path directory n ∧
    q = directory ++ [n] ∧ ∀ mode, fs.entry? q ≠ some (.directory mode) := by
  obtain ⟨p, hnew, h⟩ := bind_eq_ok h
  split at h
  · next hlast =>
    split at h
    · exact nomatch h
    · next hplain =>
      obtain rfl := Except.ok.inj h
      obtain ⟨n, hn, hname⟩ := (Option.any_eq_true isFileName _).mp hlast
      obtain ⟨ns, hns⟩ := List.getLast?_eq_some_iff.mp hn
      have hstem : Path.stem path = path := Path.stem_of_getLast? (by simp [hn, (ne_of_isFileName hname).1])
      rw [locateNew, hstem, hns] at hnew
      split at hnew
      · exact nomatch hnew
      · rw [walk_concat] at hnew
        obtain ⟨directory, hwalk, hstep⟩ := bind_eq_ok hnew
        obtain ⟨hmode, hnext⟩ := enter_eq_ok hstep
        obtain ⟨hempty, hdot, hdots⟩ := ne_of_isFileName hname
        rw [if_neg (by simp [hempty, hdot]), if_neg hdots] at hnext
        exact ⟨directory, n, ⟨⟨ns, hns, hwalk⟩, hmode, hname⟩, hnext, hplain⟩
  · exact nomatch h

/-- In the directory of a path every name for files may be used. -/
theorem EndsIn.enter_parent {directory : Place} (h : fs.EndsIn path directory n) {m : Text} (hm : isFileName m = true) :
    (fs.locate (Path.parent path) >>= fun next => fs.enter next m) = .ok (directory ++ [m]) := by
  obtain ⟨ns, hns, hwalk⟩ := h.names
  obtain ⟨mode, hmode⟩ := h.inside
  have hcounts : Path.counts n = true := by
    obtain ⟨hempty, hdot, -⟩ := ne_of_isFileName h.forFile
    simp [Path.counts, hempty, hdot]
  obtain ⟨hfilter, habsolute, hne⟩ := Path.names_parent hns hcounts
  have horigin : fs.origin (Path.parent path) = fs.origin path := by rw [origin, origin, habsolute]
  rw [FileSystem.locate, if_neg (by simpa using hne), horigin, ← walk_concat, walk_counts, hfilter, ← walk_counts,
    walk_concat, hwalk]
  exact enter_isFileName hmode hm

end LessCss.FileSystem
