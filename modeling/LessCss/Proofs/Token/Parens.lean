import LessCss.Sheet.Lead
/-!
Parentheses in a row of tokens, seen from outside: how many are open after it.

`closeParen?_eq_some` says what the search for a closing parenthesis finds, and `arguments_eq` what the
arguments of a call are when each ends with a `;`.
-/
namespace LessCss.Tokens

/-- The number of open parentheses after a row of tokens that begins with `depth` open ones. A row that closes
more than are open, or that holds a barrier, has none. -/
def depthAfter? (barrier : Token → Bool) : Nat → List Token → Option Nat
  | depth, [] => some depth
  | depth, t :: ts =>
    if barrier t then none
    else match t.kind, depth with
      | .rparen, 0 => none
      | .rparen, d + 1 => depthAfter? barrier d ts
      | .lparen, d => depthAfter? barrier (d + 1) ts
      | .function, d => depthAfter? barrier (d + 1) ts
      | _, d => depthAfter? barrier d ts

variable {barrier : Token → Bool} {depth : Nat} {ts inner rest : List Token}

theorem depthAfter?_append (us : List Token) :
    depthAfter? barrier depth (ts ++ us) =
      (depthAfter? barrier depth ts).bind fun d => depthAfter? barrier d us := by
  fun_induction depthAfter? barrier depth ts <;> simp_all [depthAfter?]

theorem barrier_of_mem {d : Nat} (h : depthAfter? barrier depth ts = some d) :
    ∀ t ∈ ts, barrier t = false := by
  intro t ht
  fun_induction depthAfter? barrier depth ts <;> grind

theorem closeParen?_append {close : Token} (hk : close.kind = .rparen) (hb : barrier close = false)
    (h : depthAfter? barrier depth inner = some 0) :
    closeParen? barrier depth (inner ++ close :: rest) = some (inner, rest) := by
  fun_induction depthAfter? barrier depth inner <;> simp_all [closeParen?]

/-- A token that is no parenthesis is passed over. -/
theorem closeParen?_cons_other {t : Token} (hb : barrier t = false) (hopen : t.kind ≠ .lparen ∧ t.kind ≠ .function)
    (hclose : t.kind ≠ .rparen) :
    closeParen? barrier depth (t :: ts) = (closeParen? barrier depth ts).map fun p => (t :: p.1, p.2) := by
  cases hk : t.kind <;> simp_all [closeParen?]

/-- A closing parenthesis is found where all parentheses that were opened before it are closed. -/
theorem closeParen?_eq_some (h : closeParen? barrier depth ts = some (inner, rest)) :
    ∃ close, close.kind = .rparen ∧ ts = inner ++ close :: rest ∧
      depthAfter? barrier depth inner = some 0 := by
  fun_induction closeParen? barrier depth ts generalizing inner rest with
  | case1 => simp at h
  | case2 => simp at h
  | case3 t ts hb hk =>
    simp only [Option.some.injEq, Prod.mk.injEq] at h
    obtain ⟨rfl, rfl⟩ := h
    exact ⟨t, hk, rfl, rfl⟩
  | case4 t ts hb d hk ih | case5 t ts hb d hk ih | case6 t ts hb d hk ih =>
    simp only [Option.map_eq_some_iff, Prod.mk.injEq, Prod.exists] at h
    obtain ⟨i, r, hi, rfl, rfl⟩ := h
    obtain ⟨close, hc, rfl, hd⟩ := ih hi
    exact ⟨close, hc, rfl, by simp [depthAfter?, hb, hk, hd]⟩
  | case7 t ts hb d h₁ h₂ h₃ h₄ ih =>
    simp only [Option.map_eq_some_iff, Prod.mk.injEq, Prod.exists] at h
    obtain ⟨i, r, hi, rfl, rfl⟩ := h
    obtain ⟨close, hc, rfl, hd⟩ := ih hi
    exact ⟨close, hc, rfl, by simp [depthAfter?, hb, hd]⟩

/-- Whether every separator in a row of tokens stands between parentheses. -/
def Undivided (separator : Token.Kind) (barrier : Token → Bool) (depth : Nat) (ts : List Token) : Prop :=
  ∀ before t after, ts = before ++ t :: after → t.kind = separator → depthAfter? barrier depth before ≠ some 0

theorem pieces_ne_nil (separator : Token.Kind) (depth : Nat) (ts : List Token) :
    pieces separator depth ts ≠ [] := by
  fun_induction pieces separator depth ts <;> simp_all

/-- The pieces hold the tokens of a row other than the separators. -/
theorem mem_pieces {separator : Token.Kind} {t : Token} (hs : t.kind ≠ separator) (ht : t ∈ ts) :
    ∃ p ∈ pieces separator depth ts, t ∈ p := by
  fun_induction pieces separator depth ts with
  | case1 => simp at ht
  | case2 depth u us h ih =>
    rcases List.mem_cons.mp ht with rfl | ht
    · exact absurd h.1 hs
    · obtain ⟨p, hp, hm⟩ := ih ht
      exact ⟨p, List.mem_cons_of_mem _ hp, hm⟩
  | case3 depth u us h d hnil ih => exact absurd hnil (pieces_ne_nil _ _ _)
  | case4 depth u us h d p ps hps ih =>
    rcases List.mem_cons.mp ht with rfl | ht
    · exact ⟨t :: p, by simp, by simp⟩
    · obtain ⟨q, hq, hm⟩ := ih ht
      rw [hps] at hq
      rcases List.mem_cons.mp hq with rfl | hq
      · exact ⟨u :: q, by simp, by simp [hm]⟩
      · exact ⟨q, by simp [hq], hm⟩

theorem mem_of_mem_pieces {separator : Token.Kind} {t : Token} {p : List Token}
    (hp : p ∈ pieces separator depth ts) (ht : t ∈ p) : t ∈ ts := by
  fun_induction pieces separator depth ts generalizing p <;> grind

theorem Undivided.tail {separator : Token.Kind} {t : Token} {d : Nat}
    (h : Undivided separator barrier depth (t :: ts))
    (hstep : ∀ us, depthAfter? barrier depth (t :: us) = depthAfter? barrier d us) :
    Undivided separator barrier d ts := by
  intro before u after hts hu
  rw [← hstep]
  exact h (t :: before) u after (by simp [hts]) hu

theorem Undivided.nil (separator : Token.Kind) : Undivided separator barrier depth [] := by
  intro before t after h
  simp at h

theorem Undivided.cons {separator : Token.Kind} {t : Token} {d : Nat} (h : Undivided separator barrier d ts)
    (hk : t.kind ≠ separator) (hstep : ∀ us, depthAfter? barrier depth (t :: us) = depthAfter? barrier d us) :
    Undivided separator barrier depth (t :: ts) := by
  intro before u after hts hu
  cases before with
  | nil =>
    simp only [List.nil_append, List.cons.injEq] at hts
    exact absurd (hts.1 ▸ hu) hk
  | cons v before =>
    simp only [List.cons_append, List.cons.injEq] at hts
    obtain ⟨rfl, rfl⟩ := hts
    rw [hstep]
    exact h before u after rfl hu

/-- A row whose separators all stand between parentheses is one piece, up to the separator after it. -/
theorem pieces_append {separator : Token.Kind} {stop : Token} (hk : stop.kind = separator)
    (hd : depthAfter? barrier depth ts = some 0) (hu : Undivided separator barrier depth ts) :
    pieces separator depth (ts ++ stop :: rest) = ts :: pieces separator 0 rest := by
  have hsep : ∀ {d t us}, Undivided separator barrier d (t :: us) → ¬(t.kind = separator ∧ d = 0) :=
    fun h hs => h [] _ _ rfl hs.1 (by simp [depthAfter?, hs.2])
  fun_induction depthAfter? barrier depth ts with
  | case1 depth =>
    simp only [Option.some.injEq] at hd
    simp [pieces, hk, hd]
  | case2 => simp at hd
  | case3 => simp at hd
  | case4 t us hb d ht ih | case5 t us hb d ht ih | case6 t us hb d ht ih =>
    have := ih hd (hu.tail fun us => by simp [depthAfter?, hb, ht])
    rw [List.cons_append, pieces, if_neg (hsep hu)]
    simp [ht, this]
  | case7 t us hb d h₁ h₂ h₃ h₄ ih =>
    have := ih hd (hu.tail fun us => by simp [depthAfter?, hb])
    have hr : t.kind ≠ .rparen := by
      intro hr
      cases d with
      | zero => exact h₁ hr rfl
      | succ d => exact h₂ d hr rfl
    rw [List.cons_append, pieces, if_neg (hsep hu)]
    split <;> simp_all

/-- Arguments that each end with a `;` are the arguments of the row they make up. -/
theorem arguments_flatMap {gs : List (List Token × { t : Token // t.kind = .semicolon })}
    (hne : ∀ g ∈ gs, g.1 ≠ []) (hd : ∀ g ∈ gs, depthAfter? barrier 0 g.1 = some 0)
    (hu : ∀ g ∈ gs, Undivided .semicolon barrier 0 g.1) :
    arguments (gs.flatMap fun g => g.1 ++ [g.2.1]) = gs.map (·.1) := by
  have hpieces : pieces .semicolon 0 (gs.flatMap fun g => g.1 ++ [g.2.1]) = gs.map (·.1) ++ [[]] := by
    induction gs with
    | nil => rfl
    | cons g gs ih =>
      simp only [List.forall_mem_cons] at hne hd hu
      simp [pieces_append g.2.2 hd.1 hu.1, ih hne.2 hd.2 hu.2]
  cases gs with
  | nil => rfl
  | cons g gs =>
    have hany : (List.flatMap (fun g : List Token × { t : Token // t.kind = .semicolon } =>
        g.1 ++ [g.2.1]) (g :: gs)).any (·.kind = .semicolon) = true := by
      simp [g.2.2]
    rw [arguments, if_pos hany, hpieces, List.filter_append, List.filter_eq_self.mpr]
    · simp
    · intro p hp
      obtain ⟨g, hg, rfl⟩ := List.mem_map.mp hp
      simp [hne g hg]

/-- A row without a `;` that has no arguments holds commas only. -/
theorem kind_of_arguments_eq_nil (hs : ∀ t ∈ ts, t.kind ≠ .semicolon) (h : arguments ts = []) :
    ∀ t ∈ ts, t.kind = .comma := by
  intro t ht
  have hany : ts.any (·.kind = .semicolon) = false := by simpa using hs
  rw [arguments, hany] at h
  by_cases hc : t.kind = .comma
  · exact hc
  · obtain ⟨p, hp, hm⟩ : ∃ p ∈ pieces .comma 0 ts, t ∈ p := mem_pieces hc ht
    have := List.filter_eq_nil_iff.mp h p hp
    simp at this
    simp [this] at hm

theorem mem_of_mem_arguments {t : Token} {p : List Token} (hp : p ∈ arguments ts) (ht : t ∈ p) : t ∈ ts :=
  mem_of_mem_pieces (List.mem_filter.mp hp).1 ht

end LessCss.Tokens
