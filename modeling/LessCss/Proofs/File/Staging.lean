import LessCss.File.Staging
import LessCss.Proofs.File.System
/-!
A file is delivered as a whole, or nothing happens.

Until it is moved, the new file is all that has been added (`finish_put`): whichever step fails, taking it away leaves
the file system as it was (`deliver_cases`). Its name is one that nothing has, so no step sees it but by its place.
-/
namespace LessCss.FileSystem

variable {fs fs' : FileSystem} {p q : Place} {e : Entry} {directory name path : Text} {content : ByteArray}

theorem isFileName_spareName (fs : FileSystem) (path : Text) : isFileName (fs.spareName path) = true := by
  simp [isFileName, spareName]

theorem length_lt_spareName {n : Text} (h : n ∈ fs.entries.flatMap (·.1) ++ fs.workingDirectory ++ Path.names path) :
    n.length < (fs.spareName path).length := by
  have hsum := (List.sublist_flatten_of_mem h).length_le
  simp only [spareName, List.length_append, List.length_replicate]
  have htmp : 0 < ".tmp".toList.length := by decide
  omega

theorem spareName_not_mem (fs : FileSystem) (path : Text) : fs.spareName path ∉ fs.entries.flatMap (·.1) ∧
    fs.spareName path ∉ fs.workingDirectory ∧ fs.spareName path ∉ Path.names path := by
  have h : fs.spareName path ∉ fs.entries.flatMap (·.1) ++ fs.workingDirectory ++ Path.names path :=
    fun h => absurd (length_lt_spareName h) (Nat.lt_irrefl _)
  rwa [List.mem_append, List.mem_append, not_or, not_or, and_assoc] at h

/-- There is nothing at a place with the spare name in it. -/
theorem entry?_spareName (h : fs.spareName path ∈ p) : fs.entry? p = none := by
  rw [FileSystem.entry?, List.lookup_eq_none_iff]
  intro f hf
  have hne : p ≠ f.1 := by
    rintro rfl
    exact (spareName_not_mem fs path).1 (List.mem_flatMap.mpr ⟨f, hf, h⟩)
  simpa using hne

def Unhindered (fs : FileSystem) : Prop := ∀ a p, fs.refusal a p = none

theorem Unhindered.allow (h : fs.Unhindered) (a : FileAction) (p : Place) : fs.allow a p = .ok () := by
  rw [FileSystem.allow, h a p]

theorem fill_put (fs : FileSystem) (p : Place) (e : Entry) (content : ByteArray) : (fs.put p e).fill p content =
    match fs.refusal .fill p with
    | some r => (fs.put p (.file (content.extract 0 r.written) e.mode), .error r.fault)
    | none => (fs.put p (.file content e.mode), .ok ()) := by
  rw [fill, entry?_put_self]
  cases hrefusal : fs.refusal .fill p <;> simp [hrefusal]

theorem permit_put (fs : FileSystem) (p : Place) (e : Entry) (mode : Nat) :
    (fs.put p e).permit p mode = (fs.allow .permit p).map fun _ => fs.put p (e.setMode mode) := by
  rw [permit, allow_put, entry?_put_self]
  cases fs.allow .permit p with
  | error f => rfl
  | ok _ => exact congrArg Except.ok (put_put fs p e _)

theorem create_eq_ok (h : fs.create directory name = .ok (p, fs')) (hn : isFileName name = true) :
    name ∈ p ∧ fs' = fs.put p (.file .empty stagedFileMode) := by
  obtain ⟨here, -, h⟩ := bind_eq_ok h
  obtain ⟨place, hstep, h⟩ := bind_eq_ok h
  obtain ⟨-, -, h⟩ := bind_eq_ok h
  split at h
  · exact nomatch h
  · obtain ⟨rfl, rfl⟩ := Prod.mk.inj (Except.ok.inj h)
    obtain ⟨hempty, hdot, hdots⟩ := ne_of_isFileName hn
    refine ⟨?_, rfl⟩
    rw [(enter_eq_ok hstep).2, if_neg (by simp [hempty, hdot]), if_neg hdots]
    exact List.mem_append_right _ List.mem_cons_self

/-- Where a file may be written, a new one may be made beside it. -/
theorem create_of_target (hfree : fs.Unhindered) (h : fs.target path = .ok q) :
    ∃ p, fs.create (Path.parent path) (fs.spareName path) = .ok (p, fs.put p (.file .empty stagedFileMode)) := by
  obtain ⟨directory, n, hends, -, -⟩ := target_eq_ok h
  obtain ⟨here, hlocate, hstep⟩ := bind_eq_ok (hends.enter_parent (isFileName_spareName fs path))
  have hnone : fs.entry? (directory ++ [fs.spareName path]) = none :=
    entry?_spareName (List.mem_append_right _ List.mem_cons_self)
  refine ⟨directory ++ [fs.spareName path], ?_⟩
  rw [create, hlocate, ok_bind, hstep, ok_bind, hfree.allow, ok_bind, hnone]
  rfl

section Finish

variable (hp : fs.spareName path ∈ p)

include hp

theorem modeFor_put (e : Entry) : (fs.put p e).modeFor path = fs.modeFor path := by
  obtain ⟨-, hhere, hpath⟩ := spareName_not_mem fs path
  rw [modeFor, modeFor, mode, mode, find_put hp hhere hpath]

theorem move_put (e : Entry) : (fs.put p e).move p path =
    fs.target path >>= fun q => (fs.allow .move q).map fun _ => fs.put q e := by
  obtain ⟨-, hhere, hpath⟩ := spareName_not_mem fs path
  rw [move, target_put hp hhere hpath, entry?_put_self, remove_put (entry?_spareName hp)]
  refine congrArg _ (funext fun q => ?_)
  rw [allow_put]
  cases fs.allow .move q <;> rfl

/-- While a new file is being finished, it is all that is added. If all goes well, it has been moved. -/
theorem finish_put (e : Entry) (content : ByteArray) :
    (∃ q, fs.target path = .ok q ∧
      (fs.put p e).finish p path content = (fs.put q (.file content (fs.modeFor path)), .ok ())) ∨
    (∃ f e', (fs.put p e).finish p path content = (fs.put p e', .error f) ∧
      (fs.Unhindered → ∃ f', fs.target path = .error f')) := by
  unfold finish
  rw [fill_put]
  cases hfill : fs.refusal .fill p with
  | some r =>
    refine .inr ⟨r.fault, _, rfl, fun hfree => ?_⟩
    rw [hfree] at hfill
    contradiction
  | none =>
    dsimp only
    rw [modeFor_put hp, permit_put]
    cases hpermit : fs.allow .permit p with
    | error f =>
      refine .inr ⟨f, _, rfl, fun hfree => ?_⟩
      rw [hfree.allow] at hpermit
      contradiction
    | ok _ =>
      dsimp only [Except.map]
      rw [move_put hp]
      cases htarget : fs.target path with
      | error f => exact .inr ⟨f, _, rfl, fun _ => ⟨f, rfl⟩⟩
      | ok q =>
        rw [ok_bind]
        cases hmove : fs.allow .move q with
        | error f =>
          refine .inr ⟨f, _, rfl, fun hfree => ?_⟩
          rw [hfree.allow] at hmove
          contradiction
        | ok _ => exact .inl ⟨q, rfl, rfl⟩

end Finish

/-- A file is delivered as a whole, or nothing happens. Something is refused then, or the path is none for a file. -/
theorem deliver_cases (fs : FileSystem) (path : Text) (content : ByteArray) :
    (∃ q, fs.target path = .ok q ∧
      fs.deliver path content = (fs.put q (.file content (fs.modeFor path)), .ok ())) ∨
    (∃ f, fs.deliver path content = (fs, .error f) ∧ (fs.Unhindered → ∃ f', fs.target path = .error f')) := by
  unfold deliver
  cases hcreate : fs.create (Path.parent path) (fs.spareName path) with
  | error f =>
    refine .inr ⟨f, rfl, fun hfree => ?_⟩
    cases htarget : fs.target path with
    | error f' => exact ⟨f', rfl⟩
    | ok q =>
      obtain ⟨p, hp⟩ := create_of_target hfree htarget
      rw [hcreate] at hp
      contradiction
  | ok made =>
    obtain ⟨p, fs'⟩ := made
    obtain ⟨hp, rfl⟩ := create_eq_ok hcreate (isFileName_spareName fs path)
    dsimp only
    rcases finish_put hp (.file .empty stagedFileMode) content with ⟨q, htarget, h⟩ | ⟨f, e', h, hfault⟩
    · exact .inl ⟨q, htarget, by rw [h]⟩
    · refine .inr ⟨f, ?_, hfault⟩
      rw [h]
      exact congrArg (·, Except.error f) (remove_put (entry?_spareName hp))

/-- A path for a file leads to its place. -/
theorem locate_of_target (h : fs.target path = .ok q) : fs.locate path = .ok q := by
  obtain ⟨directory, n, hends, rfl, -⟩ := target_eq_ok h
  exact hends.locate

/-- The permissions at the place of a file, or else those of a new one. -/
theorem modeFor_of_target (h : fs.target path = .ok q) :
    fs.modeFor path = (fs.entry? q).elim newFileMode Entry.mode := by
  rw [modeFor, mode, find, locate_of_target h, ok_bind]
  cases fs.entry? q <;> rfl

/-- Where nothing is refused, delivery writes a file at once. -/
theorem deliver_eq_write (hfree : fs.Unhindered) (path : Text) (content : ByteArray) :
    (fs.deliver path content).2.isOk = (fs.write path content).isOk ∧
      ∀ fs', fs.write path content = .ok fs' → fs.deliver path content = (fs', .ok ()) := by
  rw [write]
  rcases deliver_cases fs path content with ⟨q, htarget, h⟩ | ⟨f, h, hfault⟩
  · rw [h, htarget, modeFor_of_target htarget]
    refine ⟨rfl, fun fs' hfs' => ?_⟩
    obtain rfl := Except.ok.inj hfs'
    rfl
  · obtain ⟨f', hf'⟩ := hfault hfree
    rw [h, hf']
    exact ⟨rfl, nofun⟩

end LessCss.FileSystem
