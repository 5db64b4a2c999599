import LessCss.Proofs.Token.Blanks
import LessCss.Proofs.Token.Spell
/-!
The tokens of a collapsed text.

To collapse a text knows nothing of tokens: it works on the blanks between them and on those within them alike. The
tokens of the collapsed text are those of the text exactly if the text is `Steady`: lexeme by lexeme there is nothing
to collapse within, and no line comment, which would lose its end, stands before a lexeme (`steady_iff`).
-/
namespace LessCss

variable {b : Option Token.Kind} {s : Bool} {c : Char} {cs t : Text}

/-- In a packed text a reader sees no more than in the text. -/
theorem Text.ahead_pack (r : Text) : Ahead r (pack false r) := by
  intro d u' hu hd
  cases r with
  | nil => cases hu
  | cons c cs =>
    cases hc : isBlank c with
    | false =>
      rw [pack_plain hc] at hu
      obtain ⟨rfl, rfl⟩ := List.cons.inj hu
      refine ⟨cs, rfl, fun hdigit => ?_⟩
      cases hhead : (pack false cs).head? with
      | none => simp [startsWith, hhead] at hdigit
      | some e =>
        have he : e.isDigit = true := by simpa [startsWith, hhead] using hdigit
        have hplain : isBlank e = false := by
          rw [isDigit_iff] at he
          simp only [isBlank, Bool.or_eq_false_iff, Bool.and_eq_false_iff, decide_eq_false_iff_not, beq_eq_false_iff_ne]
          omega
        simpa [startsWith, (head?_pack hplain).mp hhead] using he
    | true =>
      by_cases hcs : pack true cs = []
      · rw [pack_last hc hcs] at hu
        cases hu
      · rw [pack_space hc hcs] at hu
        obtain ⟨rfl, -⟩ := List.cons.inj hu
        exact absurd (by decide) hd

theorem space_not_mem_digits (h : ∀ c ∈ t, c.isDigit = true) : ' ' ∉ t := fun hc => absurd (h ' ' hc) (by decide)

theorem Exponent.WellFormed.space_not_mem {e : Exponent} (h : e.WellFormed) : ' ' ∉ e.text := by
  have hletter : ' ' ≠ e.letter := by
    rintro hl
    rcases h.letter with he | he <;> rw [← hl] at he <;> exact absurd he (by decide)
  have hsign : ' ' ∉ e.sign := by
    rcases h.sign with hs | ⟨d, hd, hs⟩ <;> rw [hs]
    · exact List.not_mem_nil
    · rw [List.mem_singleton]
      rintro rfl
      exact absurd hd (by decide)
  simp only [Exponent.text, List.mem_cons, List.mem_append, not_or]
  exact ⟨hletter, hsign, space_not_mem_digits h.digits⟩

theorem Numeral.WellFormed.space_not_mem {n : Numeral} (h : n.WellFormed) : ' ' ∉ n.text := by
  have hsign : ' ' ∉ n.sign := by
    rcases h.sign with hs | hs <;> simp [hs]
  have hfraction : ' ' ∉ n.fraction.elim [] fun f => '.' :: f := by
    cases hf : n.fraction with
    | none => exact List.not_mem_nil
    | some f => simpa using space_not_mem_digits (h.fraction f hf).2
  have hexponent : ' ' ∉ n.exponent.elim [] Exponent.text := by
    cases he : n.exponent with
    | none => exact List.not_mem_nil
    | some e => exact (h.exponent e he).space_not_mem
  simp only [Numeral.text, List.mem_append, not_or]
  exact ⟨⟨⟨hsign, space_not_mem_digits h.whole⟩, hfraction⟩, hexponent⟩

theorem Measure.WellFormed.space_not_mem {m : Measure} (h : m.WellFormed) : ' ' ∉ m.text := by
  have hunit : ' ' ∉ m.unit := by
    rcases h.unit with hu | hu
    · simp [hu]
    · exact fun hc => absurd (hu ' ' hc) (by decide)
  simp only [Measure.text, List.mem_append, not_or]
  exact ⟨h.number.space_not_mem, hunit⟩

namespace Lexeme

theorem space_not_mem_name (t : Text) : ' ' ∉ t.takeWhile isNameChar := fun h => absurd (List.mem_takeWhile_imp h) (by decide)

theorem getLast?_readName (hk : (readName t).kind ≠ .unterminated) : (readName t).text.getLast? ≠ some ' ' := by
  have hname : (t.takeWhile isNameChar).getLast? ≠ some ' ' := fun h =>
    space_not_mem_name t (List.mem_of_getLast? h)
  revert hk
  unfold readName
  dsimp only
  split
  · exact fun _ => hname
  · next d ds _ =>
    split
    · split
      · intro hk
        have hurl : (readUrl none ds).kind = .url := (readUrl_kind none ds).resolve_right hk
        simp [List.getLast?_append, List.getLast?_cons, readUrl_getLast? hurl]
      · next hparen _ => simp [hparen]
    · exact fun _ => hname

/-- A lexeme that is closed ends with no space. -/
theorem getLast?_read (hk : (read b s c cs).kind ≠ .unterminated) (hc : c ≠ ' ') :
    (read b s c cs).text.getLast? ≠ some ' ' := by
  have hsigned : ∀ kind, (readSigned kind c cs).text.getLast? ≠ some ' ' := by
    intro kind
    unfold readSigned
    dsimp only
    split
    · simpa using hc
    · intro h
      rcases List.mem_cons.mp (List.mem_of_getLast? h) with hc' | hname
      · exact hc hc'.symm
      · exact space_not_mem_name cs hname
  have hnumber : (readNumber c cs).text.getLast? ≠ some ' ' := by
    unfold readNumber
    split
    · next m r hm => exact fun h => (Measure.wellFormed_of_read? hm).1.space_not_mem (List.mem_of_getLast? h)
    · simpa using hc
  revert hk
  fun_cases read b s c cs with
  | case1 =>
    intro hk
    have hstring : (readString c cs).kind = .string := (readString_kind c cs).resolve_right hk
    simp [push, List.getLast?_cons, readString_getLast? hstring, hc]
  | case2 | case3 => exact fun _ => hsigned _
  | case4 | case5 => exact fun _ => hnumber
  | case6 | case7 => exact getLast?_readName
  | case8 => exact fun _ => by simpa using hc

theorem readString_unterminated {q : Char} (h : (readString q t).kind = .unterminated) :
    (readString q t).rest = [] ∨ '\n' ∈ t := by
  fun_induction readString q t with
  | case1 | case4 => exact .inl rfl
  | case2 => exact .inr List.mem_cons_self
  | case3 => cases h
  | case5 d ds _ _ ih => exact (ih h).imp_right fun hn => .tail _ (.tail _ hn)
  | case6 c cs _ _ _ ih => exact (ih h).imp_right (.tail c)

theorem readString_again {q : Char} (h : (readString q t).kind = .unterminated) :
    readString q (readString q t).text = { readString q t with rest := [] } := by
  fun_induction readString q t with
  | case1 | case2 => rfl
  | case3 => cases h
  | case4 hn hq => simp [readString, hq]
  | case5 d ds hn hq ih => simp [push, readString, hq, ih h]
  | case6 c cs hn hq hb ih => simp [push, readString_plain hn hq hb, ih h]

theorem rest_of_unterminated (h : (read b s c cs).kind = .unterminated) (hn : '\n' ∉ cs) :
    (read b s c cs).rest = [] := by
  rcases read_unterminated h with ⟨hquote, hk⟩ | hrest
  · rw [read_quote hquote]
    exact (readString_unterminated hk).resolve_right hn
  · exact hrest

/-- A lexeme that is not closed is the same if nothing follows it. -/
theorem read_again (h : (read b s c cs).kind = .unterminated) :
    read b s c (read b s c cs).text.tail = { read b s c cs with rest := [] } := by
  rcases read_unterminated h with ⟨hquote, hk⟩ | hrest
  · rw [read_quote hquote, read_quote hquote]
    simp only [push, List.tail_cons, readString_again hk]
  · have htext := read_append b s c cs
    rw [hrest, List.append_nil] at htext
    rw [htext, List.tail_cons, ← hrest]

/-- The gap before a lexeme tells no more than what a minus would mean. -/
theorem read_spaced {s' : Bool} (h : mayBeSign b s' = mayBeSign b s) : read b s' c cs = read b s c cs := by
  rw [read, read, h]

section Packed

variable (hc : Text.isBlank c = false)

include hc

/-- If there is nothing to collapse in a closed lexeme, it is read again from the packed text. -/
theorem read_pack (hk : (read b s c cs).kind ≠ .unterminated)
    (htext : Text.collapse (read b s c cs).text = (read b s c cs).text) :
    read b s c (Text.pack false cs) = { read b s c cs with rest := Text.pack false (read b s c cs).rest } := by
  have happend := read_append b s c cs
  have hne := read_text_ne_nil b s c cs
  have hpack : c :: Text.pack false cs = (read b s c cs).text ++ Text.pack false (read b s c cs).rest := by
    rw [← Text.pack_plain hc true, ← happend]
    exact Text.pack_append (by rw [← Text.collapse_eq_pack, htext]) hne
  rw [tail_text happend hne, List.cons.injEq] at hpack
  rw [hpack.2]
  exact read_ahead hk (Text.ahead_pack _)

/-- If the same closed lexeme is read from the packed text, there is nothing to collapse in it. -/
theorem collapse_of_read_pack (hk : (read b s c cs).kind ≠ .unterminated)
    (h : (read b s c (Text.pack false cs)).text = (read b s c cs).text) :
    Text.collapse (read b s c cs).text = (read b s c cs).text := by
  have happend := read_append b s c cs
  have hpack := read_append b s c (Text.pack false cs)
  have hspace : c ≠ ' ' := by
    rintro rfl
    exact absurd hc (by decide)
  rw [h, ← Text.pack_plain hc true, ← happend] at hpack
  rw [Text.collapse_eq_pack]
  exact Text.pack_of_append hpack.symm (getLast?_read hk hspace)

/-- A lexeme that is not closed is read again from the packed text if there is nothing to collapse in it and
only blanks follow. -/
theorem read_pack_unterminated (hk : (read b s c cs).kind = .unterminated) :
    ((read b s c (Text.pack false cs)).kind = .unterminated ∧
      (read b s c (Text.pack false cs)).text = (read b s c cs).text) ↔
    Text.collapse (read b s c cs).text = (read b s c cs).text ∧ ∀ d ∈ (read b s c cs).rest, Text.isBlank d = true := by
  have happend := read_append b s c cs
  have hplain := Text.pack_plain hc true cs
  rw [Text.collapse_eq_pack]
  constructor
  · rintro ⟨hkind, htext⟩
    have hpack := read_append b s c (Text.pack false cs)
    rw [htext, rest_of_unterminated hkind (Text.newline_not_mem_pack false cs), List.append_nil, ← hplain,
      ← happend] at hpack
    have hrest : ∀ d ∈ (read b s c cs).rest, Text.isBlank d = true := by
      have hfilter := Text.filter_pack true ((read b s c cs).text ++ (read b s c cs).rest)
      rw [← hpack, List.filter_append] at hfilter
      simpa using List.filter_eq_nil_iff.mp (List.append_right_eq_self.mp hfilter.symm)
    rw [Text.pack_append_blanks hrest] at hpack
    exact ⟨hpack.symm, hrest⟩
  · rintro ⟨htext, hrest⟩
    rw [← happend, Text.pack_append_blanks hrest, htext] at hplain
    have htail : Text.pack false cs = (read b s c cs).text.tail := by rw [hplain, List.tail_cons]
    rw [htail, read_again hk]
    exact ⟨hk, rfl⟩

end Packed

end Lexeme

namespace Token

/-- What a token is, but not where it stands. -/
def spelling (t : Token) : Kind × Text := (t.kind, t.text)

/-- The kinds and texts of the tokens of a text. -/
def spellings (t : Text) : List (Kind × Text) := (ofText t).map spelling

/-- The first lexeme of a text, after a token of kind `before` if there is one. -/
def lexeme? (before : Option Kind) (t : Text) : Option Lexeme :=
  match (gap .outside t).rest with
  | [] => none
  | c :: cs => some (Lexeme.read before (!(gap .outside t).taken.isEmpty) c cs)

/-- A text, after a token of kind `before` if there is one, whose tokens stay when it is collapsed. There is nothing to
collapse within a lexeme, and no line comment stands before it. Only blanks follow a lexeme that is not closed. -/
inductive Steady : Option Kind → Text → Prop
  | last {before : Option Kind} {t : Text} (hlast : lexeme? before t = none) : Steady before t
  | lexeme {before : Option Kind} {t : Text} {l : Lexeme} (hl : lexeme? before t = some l)
      (hline : GapState.outside.opensLine t = false) (htext : Text.collapse l.text = l.text)
      (hk : l.kind ≠ .unterminated) (hrest : Steady (some l.kind) l.rest) : Steady before t
  | unterminated {before : Option Kind} {t : Text} {l : Lexeme} (hl : lexeme? before t = some l)
      (hline : GapState.outside.opensLine t = false) (htext : Text.collapse l.text = l.text)
      (hk : l.kind = .unterminated) (hrest : ∀ c ∈ l.rest, Text.isBlank c = true) : Steady before t

theorem lexeme?_eq_none : lexeme? b t = none ↔ (gap .outside t).rest = [] := by
  unfold lexeme?
  split <;> simp_all

theorem lexeme?_of_gap (h : (gap .outside t).rest = c :: cs) :
    lexeme? b t = some (Lexeme.read b (!(gap .outside t).taken.isEmpty) c cs) := by
  rw [lexeme?, h]

theorem spelling_none (h : lexeme? b t = none) : (spell b false t).map spelling = [(.eof, [])] := by
  rw [spell_nil (lexeme?_eq_none.mp h)]
  rfl

theorem spelling_some {l : Lexeme} (h : lexeme? b t = some l) :
    (spell b false t).map spelling = (l.kind, l.text) :: (spell (some l.kind) false l.rest).map spelling := by
  cases hg : (gap .outside t).rest with
  | nil =>
    rw [lexeme?_eq_none.mpr hg] at h
    contradiction
  | cons c cs =>
    rw [lexeme?_of_gap hg] at h
    obtain rfl := Option.some.inj h
    rw [spell_cons hg]
    rfl

theorem lexeme_length_lt {l : Lexeme} (h : lexeme? b t = some l) : l.rest.length < t.length := by
  cases hg : (gap .outside t).rest with
  | nil =>
    rw [lexeme?_eq_none.mpr hg] at h
    contradiction
  | cons c cs =>
    rw [lexeme?_of_gap hg] at h
    obtain rfl := Option.some.inj h
    exact rest_length_lt hg b _

theorem spelling_blanks (h : ∀ c ∈ t, Text.isBlank c = true) : (spell b false t).map spelling = [(.eof, [])] :=
  spelling_none (lexeme?_eq_none.mpr (GapState.gap_blanks h))

theorem spellings_eq (t : Text) : spellings t = (spell none false t).map spelling := by
  rw [← ofText_bare, List.map_map]
  rfl

/-- What a steady text begins with. -/
theorem steady_iff_of_lexeme {l : Lexeme} (h : lexeme? b t = some l) : Steady b t ↔
    GapState.outside.opensLine t = false ∧ Text.collapse l.text = l.text ∧
      if l.kind = .unterminated then ∀ c ∈ l.rest, Text.isBlank c = true else Steady (some l.kind) l.rest := by
  constructor
  · intro hs
    cases hs with
    | last hlast =>
      rw [h] at hlast
      contradiction
    | lexeme hl hline htext hk hrest =>
      obtain rfl := Option.some.inj (h.symm.trans hl)
      exact ⟨hline, htext, by rwa [if_neg hk]⟩
    | unterminated hl hline htext hk hrest =>
      obtain rfl := Option.some.inj (h.symm.trans hl)
      exact ⟨hline, htext, by rwa [if_pos hk]⟩
  · rintro ⟨hline, htext, hrest⟩
    split at hrest
    · next hk => exact .unterminated h hline htext hk hrest
    · next hk => exact .lexeme h hline htext hk hrest

section Pack

variable {first : Bool}

theorem gap_rest_pack (first : Bool) (t : Text) : (gap .outside (Text.pack first t)).rest =
    if GapState.outside.opensLine t then [] else Text.pack true (gap .outside t).rest :=
  GapState.gap_pack (GapState.fits_outside t) first

theorem lexeme?_pack_none (h : lexeme? b t = none) : lexeme? b (Text.pack first t) = none := by
  rw [lexeme?_eq_none] at h ⊢
  rw [gap_rest_pack, h, Text.pack_nil, ite_self]

theorem lexeme?_pack_opensLine (h : GapState.outside.opensLine t = true) : lexeme? b (Text.pack first t) = none := by
  rw [lexeme?_eq_none, gap_rest_pack, if_pos h]

theorem isBlank_of_gap (h : (gap .outside t).rest = c :: cs) : Text.isBlank c = false := by
  have hnext := next?_of_gap h
  cases hc : Text.isBlank c with
  | false => rfl
  | true => exact absurd hnext (by simp [GapState.next?, hc])

/-- The first lexeme of a packed text begins as that of the text does. -/
theorem lexeme?_pack (hb : first = false ∨ b = none) (hline : GapState.outside.opensLine t = false)
    (hg : (gap .outside t).rest = c :: cs) : lexeme? b (Text.pack first t) =
      some (Lexeme.read b (!(gap .outside t).taken.isEmpty) c (Text.pack false cs)) := by
  have hpack : (gap .outside (Text.pack first t)).rest = c :: Text.pack false cs := by
    rw [gap_rest_pack, if_neg (by simp [hline]), hg, Text.pack_plain (isBlank_of_gap hg)]
  rw [lexeme?_of_gap hpack]
  refine congrArg some (Lexeme.read_spaced ?_)
  rcases hb with rfl | rfl
  · rw [GapState.taken_pack (by simp [hg])]
  · rw [Lexeme.mayBeSign, Lexeme.mayBeSign, Option.any_none, Bool.not_false, Bool.or_true, Bool.or_true]

end Pack

/-- A text is steady exactly if packing leaves its tokens as they are. By induction on the length: a lexeme of the
packed text is that of the text exactly if there is nothing to collapse in it, and then the packed rest follows. -/
theorem spelling_pack {first : Bool} (hb : first = false ∨ b = none) (t : Text) :
    (spell b false (Text.pack first t)).map spelling = (spell b false t).map spelling ↔ Steady b t := by
  induction hn : t.length using Nat.strongRecOn generalizing b first t with
  | ind n ih =>
    cases hg : (gap .outside t).rest with
    | nil =>
      have hnone : lexeme? b t = none := lexeme?_eq_none.mpr hg
      rw [spelling_none hnone, spelling_none (lexeme?_pack_none hnone)]
      exact ⟨fun _ => .last hnone, fun _ => rfl⟩
    | cons c cs =>
      have hl := lexeme?_of_gap (b := b) hg
      rw [steady_iff_of_lexeme hl, spelling_some hl]
      cases hline : GapState.outside.opensLine t with
      | true =>
        rw [spelling_none (lexeme?_pack_opensLine hline)]
        constructor
        · intro h
          exact absurd (Prod.mk.inj (List.cons.inj h).1).1.symm (Lexeme.read_kind_ne_eof b _ c cs)
        · exact fun h => nomatch h.1
      | false =>
        rw [spelling_some (lexeme?_pack hb hline hg), List.cons.injEq, Prod.mk.injEq]
        have hc := isBlank_of_gap hg
        have hlt := lexeme_length_lt hl
        generalize (!(gap .outside t).taken.isEmpty) = s at hlt ⊢
        by_cases hk : (Lexeme.read b s c cs).kind = .unterminated
        · rw [if_pos hk, hk, Lexeme.read_pack_unterminated hc hk]
          refine ⟨fun h => ⟨rfl, h.1⟩, fun ⟨_, h⟩ => ⟨h, ?_⟩⟩
          have hkind := ((Lexeme.read_pack_unterminated hc hk).mpr h).1
          rw [Lexeme.rest_of_unterminated hkind (Text.newline_not_mem_pack false cs), spelling_blanks h.2]
          exact spelling_blanks nofun
        · rw [if_neg hk]
          constructor
          · rintro ⟨⟨hkind, htext⟩, hrest⟩
            have hcollapse := Lexeme.collapse_of_read_pack hc hk htext
            rw [Lexeme.read_pack hc hk hcollapse] at hrest
            exact ⟨rfl, hcollapse, (ih _ (hn ▸ hlt) (.inl rfl) _ rfl).mp hrest⟩
          · rintro ⟨-, hcollapse, hrest⟩
            rw [Lexeme.read_pack hc hk hcollapse]
            exact ⟨⟨rfl, rfl⟩, (ih _ (hn ▸ hlt) (.inl rfl) _ rfl).mpr hrest⟩

/-- To collapse a text leaves its tokens as they are exactly if the text is steady. -/
theorem spellings_collapse (t : Text) : spellings (Text.collapse t) = spellings t ↔ Steady none t := by
  rw [spellings_eq, spellings_eq, Text.collapse_eq_pack]
  exact spelling_pack (.inr rfl) t

end Token
end LessCss
