import LessCss.Proofs.Token.Spell
/-!
The tokens of a text lie in it side by side.

A tile is a token with the gap before it. The tiles of a text make it up (`Token.ofText_tiles`): each gap is a
row of blanks and comments, each token but the last has a text, and the place of a token is found by counting the
newlines before it and the characters after the last of them.
-/
namespace LessCss

/-- What stands between two tokens when `rest` follows it: blanks and comments, in any number and order. A line
comment ends with its newline and a block comment with the first closer in it. Only a comment that nothing follows
may lack its end. -/
inductive IsGap (rest : Text) : Text → Prop
  | nil : IsGap rest []
  | blank {c : Char} {g : Text} : Text.isBlank c = true → IsGap rest g → IsGap rest (c :: g)
  | line {body g : Text} : '\n' ∉ body → IsGap rest g → IsGap rest ('/' :: '/' :: (body ++ '\n' :: g))
  | openLine {body : Text} : '\n' ∉ body → rest = [] → IsGap rest ('/' :: '/' :: body)
  | block {body g : Text} : ¬['*', '/'] <:+: body ++ ['*'] → IsGap rest g →
      IsGap rest ('/' :: '*' :: (body ++ '*' :: '/' :: g))
  | openBlock {body : Text} : ¬['*', '/'] <:+: body → rest = [] → IsGap rest ('/' :: '*' :: body)

/-- The rest of a line comment and of the gap that it stands in. -/
def InLine (rest g : Text) : Prop :=
  ∃ body, '\n' ∉ body ∧ ((g = body ∧ rest = []) ∨ ∃ h, g = body ++ '\n' :: h ∧ IsGap rest h)

/-- The rest of a block comment and of the gap that it stands in. -/
def InBlock (rest g : Text) : Prop :=
  ∃ body, (¬['*', '/'] <:+: body ∧ g = body ∧ rest = []) ∨
    ∃ h, ¬['*', '/'] <:+: body ++ ['*'] ∧ g = body ++ '*' :: '/' :: h ∧ IsGap rest h

/-- A text that is empty with nothing after it, or else has a property after its first character. -/
def AfterOne (P : Text → Prop) (rest : Text) : Text → Prop
  | [] => rest = []
  | _ :: g => P g

/-- What a reader of gaps takes from where it stands, when it leaves `rest`. -/
def GapState.Takes (rest : Text) : GapState → Text → Prop
  | outside => IsGap rest
  | lineComment => InLine rest
  | starred => AfterOne (InBlock rest) rest
  | blockComment => InBlock rest
  | closing => AfterOne (IsGap rest) rest

/-- A body goes on without a closer if no closer begins with its new first character. -/
theorem closer_not_infix_cons {c : Char} {body : Text} (h : ¬['*', '/'] <:+: body)
    (hc : ¬(c = '*' ∧ body.head? = some '/')) : ¬['*', '/'] <:+: c :: body := by
  rw [List.infix_cons_iff]
  rintro (hp | hp)
  · obtain ⟨rfl, u, rfl⟩ := List.cons_prefix_cons.mp hp
    exact hc ⟨rfl, rfl⟩
  · exact h hp

variable {rest g : Text} {c : Char} {cs : Text}

theorem InLine.cons (hc : c ≠ '\n') (h : InLine rest g) : InLine rest (c :: g) := by
  obtain ⟨body, hbody, h⟩ := h
  refine ⟨c :: body, by simp [hbody, Ne.symm hc], ?_⟩
  rcases h with ⟨rfl, hrest⟩ | ⟨h, rfl, hgap⟩
  · exact .inl ⟨rfl, hrest⟩
  · exact .inr ⟨h, rfl, hgap⟩

theorem InLine.isGap (h : InLine rest g) : IsGap rest ('/' :: '/' :: g) := by
  obtain ⟨body, hbody, ⟨rfl, hrest⟩ | ⟨h, rfl, hgap⟩⟩ := h
  · exact .openLine hbody hrest
  · exact .line hbody hgap

theorem InBlock.cons (hc : ¬(c = '*' ∧ (g ++ rest).head? = some '/')) (h : InBlock rest g) :
    InBlock rest (c :: g) := by
  obtain ⟨body, ⟨hbody, rfl, hrest⟩ | ⟨h, hbody, rfl, hgap⟩⟩ := h
  · exact ⟨c :: g, .inl ⟨closer_not_infix_cons hbody (by simpa [hrest] using hc), rfl, hrest⟩⟩
  · refine ⟨c :: body, .inr ⟨h, ?_, rfl, hgap⟩⟩
    refine closer_not_infix_cons hbody ?_
    cases body with
    | nil => simp
    | cons d body => simpa using hc

theorem InBlock.isGap (h : InBlock rest g) : IsGap rest ('/' :: '*' :: g) := by
  obtain ⟨body, ⟨hbody, rfl, hrest⟩ | ⟨h, hbody, rfl, hgap⟩⟩ := h
  · exact .openBlock hbody hrest
  · exact .block hbody hgap

theorem InLine.tail (h : InLine rest g) (hc : (g ++ rest).head? = some c) (hn : c ≠ '\n') :
    ∃ u, g = c :: u ∧ InLine rest u := by
  obtain ⟨body, hbody, h⟩ := h
  cases body with
  | nil =>
    rcases h with ⟨rfl, rfl⟩ | ⟨h, rfl, -⟩
    · simp at hc
    · exact absurd (by simpa using hc) (Ne.symm hn)
  | cons d body =>
    simp only [List.mem_cons, not_or] at hbody
    rcases h with ⟨rfl, hrest⟩ | ⟨h, rfl, hgap⟩
    · obtain rfl : d = c := by simpa using hc
      exact ⟨body, rfl, body, hbody.2, .inl ⟨rfl, hrest⟩⟩
    · obtain rfl : d = c := by simpa using hc
      exact ⟨body ++ '\n' :: h, rfl, body, hbody.2, .inr ⟨h, rfl, hgap⟩⟩

theorem AfterOne.cons {P : Text → Prop} (h : AfterOne P rest g) (hc : (g ++ rest).head? = some c) :
    ∃ u, g = c :: u ∧ P u := by
  cases g with
  | nil => simp [show rest = [] from h] at hc
  | cons d u =>
    obtain rfl : d = c := by simpa using hc
    exact ⟨u, rfl, h⟩

namespace GapState

variable {s s' : GapState}

/-- Only outside of a comment does a gap end before the text does. -/
theorem eq_outside (h : s.next? c cs = none) : s = outside := by
  cases s with
  | outside => rfl
  | lineComment | blockComment =>
    simp only [next?] at h
    split at h <;> cases h
  | starred | closing => cases h

/-- A gap goes on with a blank or with the first character of a comment. -/
theorem takes_outside (hn : outside.next? c (g ++ rest) = some s') (h : s'.Takes rest g) : IsGap rest (c :: g) := by
  simp only [next?] at hn
  split at hn
  · next hc =>
    obtain rfl := Option.some.inj hn
    exact .blank hc h
  split at hn
  · next hc =>
    obtain rfl := Option.some.inj hn
    obtain ⟨u, rfl, hline⟩ := InLine.tail h hc.2 (by decide)
    rw [hc.1]
    exact hline.isGap
  split at hn
  · next hc =>
    obtain rfl := Option.some.inj hn
    obtain ⟨u, rfl, hblock⟩ := AfterOne.cons h hc.2
    rw [hc.1]
    exact hblock.isGap
  · cases hn

theorem takes_lineComment (hn : lineComment.next? c cs = some s') (h : s'.Takes rest g) : InLine rest (c :: g) := by
  simp only [next?] at hn
  split at hn
  · next hc =>
    obtain rfl := Option.some.inj hn
    exact ⟨[], List.not_mem_nil, .inr ⟨g, congrArg (· :: g) hc, h⟩⟩
  · next hc =>
    obtain rfl := Option.some.inj hn
    exact h.cons hc

theorem takes_blockComment (hn : blockComment.next? c (g ++ rest) = some s') (h : s'.Takes rest g) :
    InBlock rest (c :: g) := by
  simp only [next?] at hn
  split at hn
  · next hc =>
    obtain rfl := Option.some.inj hn
    obtain ⟨u, rfl, hgap⟩ := AfterOne.cons h hc.2
    rw [hc.1]
    exact ⟨[], .inr ⟨u, by decide, rfl, hgap⟩⟩
  · next hc =>
    obtain rfl := Option.some.inj hn
    exact InBlock.cons hc h

/-- What a state asks for is one character and what the next state asks for. -/
theorem takes_cons (hn : s.next? c (g ++ rest) = some s') (h : s'.Takes rest g) : s.Takes rest (c :: g) := by
  cases s with
  | outside => exact takes_outside hn h
  | lineComment => exact takes_lineComment hn h
  | blockComment => exact takes_blockComment hn h
  | starred | closing =>
    obtain rfl := Option.some.inj hn
    exact h

theorem takes_end (s : GapState) : s.Takes [] [] := by
  cases s with
  | outside => exact .nil
  | lineComment => exact ⟨[], List.not_mem_nil, .inl ⟨rfl, rfl⟩⟩
  | blockComment => exact ⟨[], .inl ⟨by decide, rfl, rfl⟩⟩
  | starred | closing => rfl

end GapState

theorem gap_takes (s : GapState) (t : Text) : s.Takes (gap s t).rest (gap s t).taken := by
  fun_induction gap s t with
  | case1 s => exact s.takes_end
  | case2 s c cs hn =>
    obtain rfl := GapState.eq_outside hn
    exact .nil
  | case3 s c cs s' hn ih =>
    rw [← gap_append s' cs] at hn
    exact GapState.takes_cons hn ih

theorem isGap_gap (t : Text) : IsGap (gap .outside t).rest (gap .outside t).taken := gap_takes .outside t

/-- The place that comes after a text from its start: one line for each newline, and one column for each character
since the last of them. -/
def Position.behind (t : Text) : Position :=
  ⟨1 + t.count '\n', 1 + (t.reverse.takeWhile (· ≠ '\n')).length⟩

theorem Position.after_append (p : Position) (t u : Text) : p.after (t ++ u) = (p.after t).after u :=
  List.foldl_append

theorem Position.after_start (t : Text) : start.after t = behind t := by
  suffices h : ∀ r : Text, start.after r.reverse = ⟨1 + r.count '\n', 1 + (r.takeWhile (· ≠ '\n')).length⟩ by
    simpa [behind] using h t.reverse
  intro r
  induction r with
  | nil => rfl
  | cons c r ih =>
    rw [List.reverse_cons, after_append, ih]
    by_cases hc : c = '\n'
    · simp [after, next, hc]
      omega
    · simp [after, next, hc]
      omega

theorem Position.after_behind (t u : Text) : (behind t).after u = behind (t ++ u) := by
  rw [← after_start, ← after_start, after_append]

/-- A token and the gap before it. -/
structure Tile where
  gap : Text
  token : Token

def Tile.text (t : Tile) : Text := t.gap ++ t.token.text

/-- What holds of a tile with the texts `before` and `after` on its sides. -/
structure Tile.Fits (before : Text) (t : Tile) (after : Text) : Prop where
  gap : IsGap (t.token.text ++ after) t.gap
  spaced : t.token.spaced = true ↔ t.gap ≠ []
  position : t.token.position = Position.behind (before ++ t.gap)

/-- A row of tiles that ends with the end of the text, when the text `before` comes before it. -/
inductive Tiled : Text → List Tile → Prop
  | eof {before : Text} {t : Tile} : t.Fits before [] → t.token.kind = .eof → t.token.text = [] → Tiled before [t]
  | cons {before : Text} {t : Tile} {ts : List Tile} :
      t.Fits before (ts.flatMap Tile.text) → t.token.kind ≠ .eof → t.token.text ≠ [] →
      Tiled (before ++ t.text) ts → Tiled before (t :: ts)

namespace Token

theorem stream_tiled (b : Option Kind) (before t : Text) :
    ∃ tiles, tiles.map Tile.token = stream b (.behind before) t ∧ tiles.flatMap Tile.text = t ∧
      Tiled before tiles := by
  induction hn : t.length using Nat.strongRecOn generalizing b before t with
  | ind n ih =>
    subst hn
    have hgap := isGap_gap t
    have hcut := gap_append .outside t
    generalize hg : (gap .outside t).taken = g at hgap hcut
    have hspaced : (!g.isEmpty) = true ↔ g ≠ [] := by simp
    cases h : (gap .outside t).rest with
    | nil =>
      rw [h] at hgap hcut
      refine ⟨[⟨g, ⟨.eof, [], .behind (before ++ g), !g.isEmpty⟩⟩], ?_, by simpa [Tile.text] using hcut, ?_⟩
      · rw [stream_nil h, hg, Position.after_behind]
        rfl
      · exact .eof ⟨hgap, hspaced, rfl⟩ rfl rfl
    | cons c cs =>
      rw [h] at hgap hcut
      have hread := Lexeme.read_append b (!g.isEmpty) c cs
      have hlt := rest_length_lt h b (!g.isEmpty)
      have hkind := Lexeme.read_kind_ne_eof b (!g.isEmpty) c cs
      have hne := Lexeme.read_text_ne_nil b (!g.isEmpty) c cs
      rw [stream_cons h, hg]
      dsimp only
      generalize Lexeme.read b (!g.isEmpty) c cs = l at hread hlt hkind hne
      obtain ⟨tiles, htokens, htext, htiled⟩ := ih _ hlt (some l.kind) (before ++ g ++ l.text) l.rest rfl
      refine ⟨⟨g, ⟨l.kind, l.text, .behind (before ++ g), !g.isEmpty⟩⟩ :: tiles, ?_, ?_, ?_⟩
      · rw [List.map_cons, htokens, Position.after_behind, Position.after_behind]
      · rw [List.flatMap_cons, htext, Tile.text, List.append_assoc, hread, hcut]
      · refine .cons ⟨?_, hspaced, rfl⟩ hkind hne ?_
        · rw [htext, hread]
          exact hgap
        · rwa [Tile.text, ← List.append_assoc]

/-- A row of tokens that ends with its only token of kind `eof`. -/
def Ended (ts : List Token) : Prop :=
  ∃ body last, ts = body ++ [last] ∧ (∀ t ∈ body, t.kind ≠ .eof) ∧ last.kind = .eof

theorem ended_cons {t : Token} {ts : List Token} :
    Ended (t :: ts) ↔ (t.kind = .eof ∧ ts = []) ∨ (t.kind ≠ .eof ∧ Ended ts) := by
  constructor
  · rintro ⟨body, last, hts, hbody, hlast⟩
    cases body with
    | nil =>
      obtain ⟨rfl, rfl⟩ := List.cons.inj hts
      exact .inl ⟨hlast, rfl⟩
    | cons u body =>
      obtain ⟨rfl, rfl⟩ := List.cons.inj hts
      simp only [List.forall_mem_cons] at hbody
      exact .inr ⟨hbody.1, body, last, rfl, hbody.2, hlast⟩
  · rintro (⟨ht, rfl⟩ | ⟨ht, body, last, rfl, hbody, hlast⟩)
    · exact ⟨[], t, rfl, by simp, ht⟩
    · exact ⟨t :: body, last, rfl, by simpa [ht] using hbody, hlast⟩

theorem not_ended_nil : ¬Ended [] := by
  rintro ⟨body, last, hts, -⟩
  simp at hts

theorem Ended.stops {p : Token → Bool} (hp : ∀ t, t.kind = .eof → p t = true) {ts : List Token} (hts : Ended ts) :
    ∃ before t after, ts = before ++ t :: after ∧ (∀ u ∈ before, p u = false) ∧ p t = true := by
  induction ts with
  | nil => exact absurd hts not_ended_nil
  | cons t ts ih =>
    cases ht : p t with
    | true => exact ⟨[], t, ts, rfl, List.forall_mem_nil _, ht⟩
    | false =>
      rcases ended_cons.mp hts with ⟨heof, -⟩ | ⟨-, hrest⟩
      · exact absurd (hp t heof) (by simp [ht])
      · obtain ⟨before, u, after, rfl, hbefore, hu⟩ := ih hrest
        exact ⟨t :: before, u, after, rfl, List.forall_mem_cons.mpr ⟨ht, hbefore⟩, hu⟩

theorem ended_of_tiled {before : Text} {tiles : List Tile} (h : Tiled before tiles) : Ended (tiles.map Tile.token) := by
  induction h with
  | eof _ hk _ => exact ended_cons.mpr (.inl ⟨hk, rfl⟩)
  | cons _ hk _ _ ih => exact ended_cons.mpr (.inr ⟨hk, ih⟩)

/-- The tokens of a text end with the only one of kind `eof`. -/
theorem ofText_ended (source : Text) : Ended (ofText source) := by
  obtain ⟨tiles, htokens, -, htiled⟩ := stream_tiled none [] source
  have hended := ended_of_tiled htiled
  rwa [htokens] at hended

/-- The tokens of a text are tiles that make it up. -/
theorem ofText_tiles (source : Text) :
    ∃ tiles, tiles.map Tile.token = ofText source ∧ tiles.flatMap Tile.text = source ∧ Tiled [] tiles :=
  stream_tiled none [] source

end Token

end LessCss
