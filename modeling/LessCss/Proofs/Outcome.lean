import LessCss.Diagnostic
/-!
Outcomes of steps that may fail: what is known of the steps when the outcome of all of them is known.
-/
namespace LessCss

variable {α β : Type}

theorem ok_bind {ε : Type} (a : α) (k : α → Except ε β) : (Except.ok a >>= k) = k a := rfl

@[simp]
theorem mapError_ok {ε ε' : Type} (f : ε → ε') (a : α) : (Except.ok a).mapError f = .ok a := rfl

@[simp]
theorem mapError_error {ε ε' : Type} (f : ε → ε') (d : ε) : (Except.error d : Except ε α).mapError f = .error (f d) := rfl

theorem bind_eq_ok {ε : Type} {e : Except ε α} {f : α → Except ε β} {b : β} (h : e >>= f = .ok b) :
    ∃ a, e = .ok a ∧ f a = .ok b := by
  cases e with
  | error d => cases h
  | ok a => exact ⟨a, rfl, h⟩

theorem map_eq_ok {e : Except Diagnostic α} {f : α → β} {b : β} (h : e.map f = .ok b) :
    ∃ a, e = .ok a ∧ f a = b := by
  cases e with
  | error d => cases h
  | ok a => exact ⟨a, rfl, Except.ok.inj h⟩

/-- A fault can be read off an outcome whose result is not looked at. -/
theorem map_mapError_eq_error {ε ε' : Type} {e : Except ε α} {f : ε → ε'} {g : α → β} {r : ε'}
    (h : (e.mapError f).map g = .error r) : ∃ d, e = .error d ∧ f d = r := by
  cases e with
  | error d => exact ⟨d, rfl, Except.error.inj h⟩
  | ok a => cases h

theorem map_map {ε γ : Type} (e : Except ε α) (f : α → β) (g : β → γ) : (e.map f).map g = e.map fun a => g (f a) := by
  cases e <;> rfl

theorem map_bind {ε γ : Type} (e : Except ε α) (k : α → Except ε β) (g : β → γ) :
    (e >>= k).map g = e >>= fun a => (k a).map g := by
  cases e <;> rfl

theorem eq_ok_of_toOption {e : Except Diagnostic α} {a : α} (h : e.toOption = some a) : e = .ok a := by
  cases e with
  | error d => cases h
  | ok b => exact congrArg _ (Option.some.inj h)

theorem mapM_attach {xs : List α} {f : { x // x ∈ xs } → Except Diagnostic β} {g : α → Except Diagnostic β}
    (h : ∀ x hx, f ⟨x, hx⟩ = g x) : xs.attach.mapM f = xs.mapM g := by
  rw [List.mapM_subtype h, List.unattach_attach]

theorem mapM_congr {f g : α → Except Diagnostic β} {xs : List α} (h : ∀ x ∈ xs, f x = g x) : xs.mapM f = xs.mapM g := by
  rw [← mapM_attach (f := fun x => f x.1) fun x _ => rfl, mapM_attach h]

/-- One step for each member of a list. -/
theorem mapM_cons_eq_ok {f : α → Except Diagnostic β} {a : α} {as : List α} {bs : List β}
    (h : (a :: as).mapM f = .ok bs) : ∃ b others, f a = .ok b ∧ as.mapM f = .ok others ∧ bs = b :: others := by
  rw [List.mapM_cons] at h
  obtain ⟨b, hb, h⟩ := bind_eq_ok h
  obtain ⟨others, hothers, h⟩ := bind_eq_ok h
  exact ⟨b, others, hb, hothers, (Except.ok.inj h).symm⟩

theorem exists_of_mapM {f : α → Except Diagnostic β} {as : List α} {bs : List β}
    (h : as.mapM f = .ok bs) {a : α} (ha : a ∈ as) : ∃ b ∈ bs, f a = .ok b := by
  induction as generalizing bs with
  | nil => exact nomatch ha
  | cons a' as ih =>
    obtain ⟨b, others, hb, hothers, rfl⟩ := mapM_cons_eq_ok h
    rcases List.mem_cons.mp ha with rfl | ha
    · exact ⟨b, List.mem_cons_self, hb⟩
    · obtain ⟨b', hb', hf⟩ := ih hothers ha
      exact ⟨b', .tail _ hb', hf⟩

/-- A result with one property, or a diagnostic with another. -/
def Ends (P : α → Prop) (Q : Diagnostic → Prop) : Except Diagnostic α → Prop
  | .ok a => P a
  | .error d => Q d

namespace Ends

variable {P : α → Prop} {P' : β → Prop} {Q : Diagnostic → Prop} {e : Except Diagnostic α}

theorem of_ok (h : Ends P Q e) {a : α} (ha : e = .ok a) : P a := by
  rwa [ha] at h

theorem of_error (h : Ends P Q e) {d : Diagnostic} (hd : e = .error d) : Q d := by
  rwa [hd] at h

theorem mono {R : α → Prop} {Q' : Diagnostic → Prop} (h : Ends P Q e) (hP : ∀ a, P a → R a)
    (hQ : ∀ d, Q d → Q' d) : Ends R Q' e := by
  cases e with
  | error d => exact hQ d h
  | ok a => exact hP a h

theorem mono_ok {R : α → Prop} (h : Ends P Q e) (hP : ∀ a, P a → R a) : Ends R Q e := h.mono hP fun _ hd => hd

theorem mono_error {Q' : Diagnostic → Prop} (h : Ends P Q e) (hQ : ∀ d, Q d → Q' d) : Ends P Q' e :=
  h.mono (fun _ ha => ha) hQ

theorem bind {f : α → Except Diagnostic β} (h : Ends P Q e) (hf : ∀ a, e = .ok a → P a → Ends P' Q (f a)) :
    Ends P' Q (e >>= f) := by
  cases e with
  | error d => exact h
  | ok a => exact hf a rfl h

theorem map {f : α → β} (h : Ends P Q e) (hf : ∀ a, P a → P' (f a)) : Ends P' Q (e.map f) := by
  cases e with
  | error d => exact h
  | ok a => exact hf a h

/-- Steps for the members of a list, each of which ends so. -/
theorem mapM {f : α → Except Diagnostic β} {as : List α} (h : ∀ a ∈ as, Ends P' Q (f a)) :
    Ends (∀ b ∈ ·, P' b) Q (as.mapM f) := by
  induction as with
  | nil => exact List.forall_mem_nil P'
  | cons a as ih =>
    rw [List.forall_mem_cons] at h
    rw [List.mapM_cons]
    exact h.1.bind fun b _ hb => (ih h.2).bind fun bs _ hbs => List.forall_mem_cons.mpr ⟨hb, hbs⟩

end Ends

/-- The second outcome is the first one, unless the first one is a fault. -/
def Follows (e e' : Except Diagnostic α) : Prop := ∀ a, e = .ok a → e' = .ok a

namespace Follows

theorem refl (e : Except Diagnostic α) : Follows e e := fun _ h => h

theorem error (d : Diagnostic) (e : Except Diagnostic α) : Follows (.error d) e := nofun

theorem bind {e e' : Except Diagnostic α} {f f' : α → Except Diagnostic β} (h : Follows e e')
    (hf : ∀ a, e = .ok a → Follows (f a) (f' a)) : Follows (e >>= f) (e' >>= f') := by
  intro b hb
  obtain ⟨a, ha, hfa⟩ := bind_eq_ok hb
  rw [h a ha]
  exact hf a ha b hfa

theorem map {e e' : Except Diagnostic α} (h : Follows e e') (f : α → β) : Follows (e.map f) (e'.map f) := by
  intro b hb
  obtain ⟨a, ha, rfl⟩ := map_eq_ok hb
  rw [h a ha]
  rfl

theorem mapM {f f' : α → Except Diagnostic β} {as : List α} (h : ∀ a ∈ as, Follows (f a) (f' a)) :
    Follows (as.mapM f) (as.mapM f') := by
  induction as with
  | nil => exact refl _
  | cons a as ih =>
    rw [List.forall_mem_cons] at h
    rw [List.mapM_cons, List.mapM_cons]
    exact h.1.bind fun _ _ => (ih h.2).bind fun _ _ => refl _

end Follows

/-- Steps that make nothing may be left out. -/
theorem mapM_filter_flatten {f : α → Except Diagnostic (List β)} {p : α → Bool} (h : ∀ a, p a = false → f a = .ok [])
    (as : List α) : ((as.filter p).mapM f).map List.flatten = (as.mapM f).map List.flatten := by
  induction as with
  | nil => rfl
  | cons a as ih =>
    rw [List.filter_cons, List.mapM_cons]
    cases ha : p a with
    | false =>
      rw [if_neg (by simp), ih, h a ha, ok_bind]
      cases as.mapM f <;> rfl
    | true =>
      rw [if_pos rfl, List.mapM_cons]
      cases f a with
      | error d => rfl
      | ok bs =>
        rw [ok_bind, ok_bind]
        cases hfilter : (as.filter p).mapM f <;> cases hall : as.mapM f <;> rw [hfilter, hall] at ih
        · exact ih
        · exact nomatch ih
        · exact nomatch ih
        · exact congrArg (Except.ok <| bs ++ ·) (Except.ok.inj ih)

end LessCss
