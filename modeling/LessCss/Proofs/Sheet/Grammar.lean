import LessCss.Proofs.Sheet.Signature
import LessCss.Proofs.Sheet.Nesting
/-!
Written headers and items lead what they are read as.

One statement for each construct: `lead?` takes exactly the tokens that spell it, whatever follows.
-/
namespace LessCss.Written

open Tokens

variable {rest : List Token}

theorem Definition.lead (d : Definition) (rest : List Token) :
    lead? (d.tokens ++ rest) = .ok (some (.definition d.definition, rest)) := by
  simpa [tokens, definition, skipSemicolon_cons d.stop.2] using
    lead?_definition d.name.2 d.colon.2 d.value.fits d.value.ne_nil
      (isStop_eq_true_iff.mpr (.inr (.inl d.stop.2))) (by simp [d.stop.2]) rest

/-- What may follow the signature of a call, up to the `;` after it. -/
def ending (importance : Option Importance) (stop : Mark .semicolon) (rest : List Token) : List Token :=
  importance.elim [] Importance.tokens ++ stop.1 :: rest

theorem next_ending (importance : Option Importance) (stop : Mark .semicolon) (rest : List Token) :
    (next (ending importance stop rest)).kind = .semicolon ∨
      (next (ending importance stop rest)).kind = .delim := by
  cases importance with
  | none => exact .inl stop.2
  | some i => exact .inr (kind_of_isDelim (isDelim_of_isImportant i.spells).1)

theorem named_ending (name : Text) (importance : Option Importance) (stop : Mark .semicolon) :
    Signature.named name (ending importance stop rest) = some ⟨name, none, ending importance stop rest⟩ := by
  have hk := next_ending importance stop rest
  cases importance <;> exact named_of_ne_lparen (by intro h; simp_all [ending, Importance.tokens])

theorem isCall_ending (name : Text) (args : Option (List Token)) (importance : Option Importance)
    (stop : Mark .semicolon) : (Signature.mk name args (ending importance stop rest)).isCall = true := by
  cases importance with
  | none => simp [ending, Signature.isCall, stop.2]
  | some i => simp [ending, Signature.isCall, Importance.tokens, i.spells]

theorem isDefinition_ending (name : Text) (args : Option (List Token)) (importance : Option Importance)
    (stop : Mark .semicolon) : (Signature.mk name args (ending importance stop rest)).isDefinition = false := by
  have hk := next_ending importance stop rest
  cases args with
  | none => rfl
  | some args =>
    have hne : (next (ending importance stop rest)).kind ≠ .lbrace := by
      intro h
      simp [h] at hk
    simp [Signature.isDefinition, hne]

theorem readCall_ending (p : Position) (name : Text) (args : Option (List Token))
    (importance : Option Importance) (stop : Mark .semicolon) :
    readCall p ⟨name, args, ending importance stop rest⟩ =
      (⟨name, arguments (args.getD []), importance.isSome, p⟩, rest) := by
  cases importance with
  | none =>
    have hd : stop.1.isDelim '!' = false := isDelim_eq_false (by simp [stop.2])
    simp [readCall, ending, hd, skipSemicolon_cons stop.2, Signature.argumentList]
  | some i =>
    have hd := (isDelim_of_isImportant i.spells).1
    simp [readCall, ending, Importance.tokens, hd, skipSemicolon_cons stop.2, Signature.argumentList]

theorem Name.next_kind (n : Name) : (next (n.tokens ++ rest)).kind ≠ .atKeyword := by
  cases n with
  | dotted dot word => simp [tokens, kind_of_isDelim dot.2]
  | hash h => simp [tokens, h.2]

theorem Opening.next_kind (o : Opening) : (next (o.tokens ++ rest)).kind ≠ .atKeyword := by
  cases o with
  | paren name lparen => simpa [tokens] using Name.next_kind name
  | function dot word => simp [tokens, kind_of_isDelim dot.2]

theorem depthAfter?_argumentTokens (args : List (Argument × Mark .semicolon)) :
    depthAfter? endsArguments 0 (argumentTokens args) = some 0 := by
  induction args with
  | nil => rfl
  | cons a args ih =>
    have hstop : depthAfter? endsArguments 0 [a.2.1] = some 0 := by
      simp [depthAfter?, endsArguments, a.2.2]
    rw [argumentTokens, List.flatMap_cons, depthAfter?_append, depthAfter?_append, a.1.paired]
    simpa [hstop, argumentTokens] using ih

theorem arguments_argumentTokens (args : List (Argument × Mark .semicolon)) :
    arguments (argumentTokens args) = args.map (·.1.tokens) := by
  have h : arguments ((args.map fun a => (a.1.tokens, a.2)).flatMap fun g => g.1 ++ [g.2.1]) =
      (args.map fun a => (a.1.tokens, a.2)).map (·.1) :=
    arguments_flatMap (List.forall_mem_map.mpr fun a _ => a.1.ne_nil)
      (List.forall_mem_map.mpr fun a _ => a.1.paired) (List.forall_mem_map.mpr fun a _ => a.1.undivided)
  simpa [argumentTokens, List.flatMap_map, Function.comp_def] using h

theorem Call.lead (c : Call) (rest : List Token) : lead? (c.tokens ++ rest) = .ok (some (.call c.call, rest)) := by
  cases c with
  | bare name importance stop =>
    have hts : (Call.bare name importance stop).tokens ++ rest =
        name.tokens ++ ending importance stop rest := by
      simp [tokens, ending]
    have hposition : next ((Call.bare name importance stop).tokens) =
        next (name.tokens ++ ending importance stop rest) := by
      cases name <;> simp [tokens, Name.tokens]
    simp [lead?, hts, Name.next_kind, Name.read, named_ending, isDefinition_ending, isCall_ending,
      readCall_ending, call, hposition, arguments, pieces]
  | applied opening args close importance stop =>
    have hts : (Call.applied opening args close importance stop).tokens ++ rest =
        opening.tokens ++ (argumentTokens args ++ close.1 :: ending importance stop rest) := by
      simp [tokens, ending]
    have hposition : next ((Call.applied opening args close importance stop).tokens) =
        next (opening.tokens ++ (argumentTokens args ++ close.1 :: ending importance stop rest)) := by
      rcases opening with ⟨name, _⟩ | _
      · cases name <;> simp [tokens, Opening.tokens, Name.tokens]
      · simp [tokens, Opening.tokens]
    simp [lead?, hts, Opening.next_kind, Opening.read, opened_append close (depthAfter?_argumentTokens args),
      isDefinition_ending, isCall_ending, readCall_ending, call, hposition, arguments_argumentTokens]

theorem Parameter.read (p : Parameter) : Signature.parameter p.tokens = .ok p.parameter := by
  cases h : p.fallback with
  | none => simp [Signature.parameter, tokens, parameter, h, p.name.2]
  | some f => simp [Signature.parameter, tokens, parameter, h, p.name.2, f.1.2, f.2.ne_nil]

theorem mapM_parameter (params : List (Parameter × Mark .semicolon)) :
    params.mapM (Signature.parameter ∘ fun p => p.1.argument.tokens) =
      .ok (params.map (·.1.parameter)) := by
  induction params with
  | nil => rfl
  | cons p params ih =>
    have hp : Signature.parameter p.1.argument.tokens = .ok p.1.parameter := p.1.read
    rw [List.mapM_cons, ih, Function.comp_apply, hp]
    rfl

theorem lead?_mixin (opening : Opening) (params : List (Parameter × Mark .semicolon)) (close : Mark .rparen)
    (lbrace : Mark .lbrace) :
    lead? ((Header.mixin opening params close).tokens ++ lbrace.1 :: rest) =
      .ok (some (.opened (Header.mixin opening params close).header, rest)) := by
  have hts : (Header.mixin opening params close).tokens ++ lbrace.1 :: rest =
      opening.tokens ++ (argumentTokens (params.map fun p => (p.1.argument, p.2)) ++
        close.1 :: lbrace.1 :: rest) := by
    simp [Header.tokens]
  have hargs : arguments (argumentTokens (params.map fun p => (p.1.argument, p.2))) =
      params.map fun p => p.1.argument.tokens := by
    simp [arguments_argumentTokens, Function.comp_def]
  have hhead : (params.map fun p => p.1.argument.tokens).all (fun a => (next a).kind = .atKeyword) = true :=
    List.all_eq_true.mpr (List.forall_mem_map.mpr fun p _ => by
      simp [Parameter.argument, Parameter.tokens, p.1.name.2])
  simp [lead?, hts, Opening.next_kind, Opening.read, opened_append close (depthAfter?_argumentTokens _),
    Signature.isDefinition, Signature.argumentList, hargs, hhead, lbrace.2, mapM_parameter, Except.map,
    Header.header]

theorem inSelector_iff {t : Token} (h : inSelector t = true) : isStop t = false ∧ t.kind ≠ .atKeyword ∧
    t.kind ≠ .comma ∧ t.isDelim '!' = false := by
  unfold inSelector at h
  split at h <;> simp_all [isStop]

theorem readSelectors_append {group ts : List Token} (h : ∀ t ∈ ts, inSelector t = true) :
    readSelectors group (ts ++ rest) = readSelectors (group ++ ts) rest := by
  induction ts generalizing group with
  | nil => simp
  | cons t ts ih =>
    simp only [List.forall_mem_cons] at h
    have ht : readSelectors group (t :: (ts ++ rest)) = readSelectors (group ++ [t]) (ts ++ rest) := by
      have hin := h.1
      unfold inSelector at hin
      rw [readSelectors]
      split at hin <;> simp_all
    rw [List.cons_append, ht, ih h.2, List.append_assoc, List.singleton_append]

theorem readSelectors_others {group : List Token} (hg : group ≠ []) (lbrace : Mark .lbrace)
    (others : List (Mark .comma × Selector)) :
    readSelectors group ((others.flatMap fun s => s.1.1 :: s.2.tokens) ++ lbrace.1 :: rest) =
      .ok (Token.join group :: others.map (fun o => Token.join o.2.tokens), rest) := by
  induction others generalizing group with
  | nil => simp [readSelectors, lbrace.2, hg]
  | cons o others ih =>
    have ho := ih o.2.ne_nil
    rw [List.flatMap_cons, List.cons_append, List.cons_append, List.append_assoc, readSelectors]
    simp [o.1.2, hg, readSelectors_append o.2.fits, ho, bind, Except.bind]

theorem Selectors.read (s : Selectors) (lbrace : Mark .lbrace) :
    readSelectors [] (s.tokens ++ lbrace.1 :: rest) = .ok (s.texts, rest) := by
  rw [tokens, selectorTokens, List.append_assoc, readSelectors_append s.first.fits, List.nil_append]
  exact readSelectors_others s.first.ne_nil lbrace s.others

theorem Selectors.fits (s : Selectors) :
    ∀ t ∈ s.tokens, isStop t = false ∧ t.kind ≠ .atKeyword ∧ t.isDelim '!' = false := by
  have hselector : ∀ (g : Selector), ∀ t ∈ g.tokens,
      isStop t = false ∧ t.kind ≠ .atKeyword ∧ t.isDelim '!' = false := by
    intro g t ht
    have h := inSelector_iff (g.fits t ht)
    exact ⟨h.1, h.2.1, h.2.2.2⟩
  intro t ht
  simp only [tokens, selectorTokens, List.mem_append, List.mem_flatMap, List.mem_cons] at ht
  rcases ht with ht | ⟨o, _, rfl | ht⟩
  · exact hselector s.first t ht
  · simp [isStop, o.1.2, isDelim_eq_false]
  · exact hselector o.2 t ht

/-- Where a row is cut before a token that its first part does not hold. -/
theorem append_cons_cut {α : Type} {t : α} {ts rest before after : List α}
    (h : ts ++ t :: rest = before ++ after) (ht : t ∉ before) :
    ∃ us, ts = before ++ us ∧ after = us ++ t :: rest := by
  rcases List.append_eq_append_iff.mp h with ⟨us, hb, ha⟩ | ⟨us, hts, ha⟩
  · cases us with
    | nil => exact ⟨[], by simpa using hb.symm, by simpa using ha.symm⟩
    | cons u us =>
      simp only [List.cons_append, List.cons.injEq] at ha
      exact absurd (by simp [hb, ha.1]) ht
  · exact ⟨us, hts, ha⟩

/-- What follows the tokens of a name that stands among selectors is no end of a call. -/
theorem isCall_selectors {name : Text} {args : Option (List Token)} {us : List Token} (lbrace : Mark .lbrace)
    (h : ∀ t ∈ us, isStop t = false ∧ t.kind ≠ .atKeyword ∧ t.isDelim '!' = false) :
    (Signature.mk name args (us ++ lbrace.1 :: rest)).isCall = false := by
  cases us with
  | nil =>
    have hmark : isImportant (lbrace.1 :: rest.take 1) = false := by
      have hd : lbrace.1.isDelim '!' = false := isDelim_eq_false (by simp [lbrace.2])
      cases rest <;> simp [isImportant, hd]
    simp [Signature.isCall, lbrace.2, hmark]
  | cons u us =>
    obtain ⟨hstop, -, hd⟩ := h u (by simp)
    simp only [isStop, decide_eq_false_iff_not, not_or] at hstop
    have hmark : isImportant (u :: (us ++ lbrace.1 :: rest).take 1) = false := by
      cases hts : us ++ lbrace.1 :: rest <;> simp [isImportant, hd]
    simp [Signature.isCall, hstop, hmark]

theorem Name.no_brace (n : Name) : ∀ t ∈ n.tokens, Braces.isBrace t = false := by
  cases n with
  | dotted dot word => simp [tokens, Braces.isBrace, kind_of_isDelim dot.2, word.2.1]
  | hash h => simp [tokens, Braces.isBrace, h.2]

theorem Opening.no_brace (o : Opening) : ∀ t ∈ o.tokens, Braces.isBrace t = false := by
  cases o with
  | paren name lparen =>
    intro t ht
    rcases List.mem_append.mp ht with ht | ht
    · exact name.no_brace t ht
    · simp [List.mem_singleton.mp ht, Braces.isBrace, lparen.2]
  | function dot word => simp [tokens, Braces.isBrace, kind_of_isDelim dot.2, word.2.1]

theorem no_brace_of_depthAfter? {ts : List Token} {d : Nat} (h : depthAfter? endsArguments 0 ts = some d) :
    ∀ t ∈ ts, Braces.isBrace t = false := by
  intro t ht
  have hb := barrier_of_mem h t ht
  simp only [endsArguments, decide_eq_false_iff_not, not_or] at hb
  simp [Braces.isBrace, hb]

theorem ne_of_no_brace {t : Token} {ts : List Token} (hb : t.kind = .lbrace)
    (h : ∀ t ∈ ts, Braces.isBrace t = false) : t ∉ ts := by
  intro ht
  simpa [Braces.isBrace, hb] using h t ht

/-- Among selectors a signature neither defines a mixin nor calls one. -/
theorem Selectors.signature (s : Selectors) (lbrace : Mark .lbrace) {g : Signature}
    (h : Signature.read? (s.tokens ++ lbrace.1 :: rest) = some g) :
    g.isDefinition = false ∧ g.isCall = false := by
  have hspells := spells_of_read? h
  generalize hts : s.tokens ++ lbrace.1 :: rest = ts at hspells
  cases hspells with
  | name n after =>
    obtain ⟨us, hs, rfl⟩ := append_cons_cut hts (ne_of_no_brace lbrace.2 n.no_brace)
    exact ⟨rfl, isCall_selectors lbrace fun t ht => s.fits t (by simp [hs, ht])⟩
  | opening o args close after hd =>
    have hbefore : ∀ t ∈ o.tokens ++ (args ++ [close.1]), Braces.isBrace t = false := by
      intro t ht
      simp only [List.mem_append, List.mem_singleton] at ht
      rcases ht with ht | ht | rfl
      · exact o.no_brace t ht
      · exact no_brace_of_depthAfter? hd t ht
      · simp [Braces.isBrace, close.2]
    have hcut : s.tokens ++ lbrace.1 :: rest = (o.tokens ++ (args ++ [close.1])) ++ after := by simpa using hts
    obtain ⟨us, hs, rfl⟩ := append_cons_cut hcut (ne_of_no_brace lbrace.2 hbefore)
    refine ⟨?_, isCall_selectors lbrace fun t ht => s.fits t (by simp [hs, ht])⟩
    cases us with
    | cons u us =>
      have hu := (s.fits u (by simp [hs])).1
      simp only [isStop, decide_eq_false_iff_not, not_or] at hu
      simp [Signature.isDefinition, hu]
    | nil =>
      -- Arguments would begin with a variable, which no selector holds, so there are none.
      have hargs : arguments args ≠ [] := by
        intro hnil
        have hcomma := kind_of_arguments_eq_nil (fun t ht => by
          have ht := (s.fits t (by simp [hs, ht])).1
          simp only [isStop, decide_eq_false_iff_not, not_or] at ht
          exact ht.2.1) hnil
        apply s.not_mixin o (args.attach.map fun t => ⟨t.1, hcomma t.1 t.2⟩) close
        simpa [Selectors.tokens, List.map_map, Function.comp_def] using hs
      cases ha : arguments args with
      | nil => exact absurd ha hargs
      | cons a as =>
        have hne : a ≠ [] := by
          have hm : a ∈ arguments args := by simp [ha]
          simpa using (List.mem_filter.mp hm).2
        cases a with
        | nil => exact absurd rfl hne
        | cons t a =>
          have hmem : t ∈ args := mem_of_mem_arguments (show t :: a ∈ arguments args by simp [ha]) (by simp)
          have ht := (s.fits t (by simp [hs, hmem])).2.1
          simp [Signature.isDefinition, ha, ht]

theorem lead?_rule (s : Selectors) (lbrace : Mark .lbrace) :
    lead? ((Header.rule s).tokens ++ lbrace.1 :: rest) =
      .ok (some (.opened (Header.rule s).header, rest)) := by
  have hstop : isStop lbrace.1 = true := isStop_eq_true_iff.mpr (.inl lbrace.2)
  have hopen : opensBlock (s.tokens ++ lbrace.1 :: rest) = true := by
    simpa [lbrace.2] using opensBlock_append (fun t ht => (s.fits t ht).1) hstop rest
  have hrule : ruleHeader? (s.tokens ++ lbrace.1 :: rest) =
      .ok (some (.opened (.rule s.texts), rest)) := by
    simp [ruleHeader?, hopen, s.read, Except.map]
  have hhead : (next (s.tokens ++ lbrace.1 :: rest)).kind ≠ .atKeyword := by
    cases hs : s.tokens with
    | nil => simp [lbrace.2]
    | cons t ts => exact (s.fits t (by simp [hs])).2.1
  rw [Header.tokens, Header.header, ← hrule]
  unfold lead?
  dsimp only
  rw [if_neg hhead]
  cases hg : Signature.read? (s.tokens ++ lbrace.1 :: rest) with
  | none => rfl
  | some g =>
    obtain ⟨hd, hc⟩ := s.signature lbrace hg
    simp [hd, hc]

theorem Header.lead (h : Header) (lbrace : Mark .lbrace) (rest : List Token) :
    lead? (h.tokens ++ lbrace.1 :: rest) = .ok (some (.opened h.header, rest)) := by
  cases h with
  | rule s => exact lead?_rule s lbrace
  | atRule name params => exact lead?_atHeader name.2 params.fits params.head lbrace.2
  | mixin opening params close => exact lead?_mixin opening params close lbrace

end LessCss.Written
