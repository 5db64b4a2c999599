import LessCss.Proofs.Token.Runs
/-!
A text whose gaps are all single spaces, with the same tokens.

`Token.relay` writes the tokens of a text back. Its tokens are those of the text, but for their places and for
what is before the first of them (`Token.relay_tokens`), unless one of them is unterminated.
-/
namespace LessCss.Token

/-- The tokens of a text written back with one space in the place of each gap between them. -/
def relay (source : Text) : Text := join ((ofText source).filter (·.kind ≠ .eof))

theorem relay_eq (source : Text) : relay source = join ((spell none false source).filter (·.kind ≠ .eof)) := by
  have hpiece : ∀ t ∈ (ofText source).filter (·.kind ≠ .eof), t.bare.piece = t.piece := by
    intro t ht
    rw [bare_of_kind_ne_eof (by simpa using (List.mem_filter.mp ht).2), unplaced_piece]
  rw [relay, ← ofText_bare, List.filter_map, join, join, List.map_map]
  exact congrArg joinPieces (List.map_congr_left fun t ht => (hpiece t ht).symm)

theorem relay_tokens {source : Text} (h : ∀ t ∈ ofText source, t.kind ≠ .unterminated) :
    ∃ t ts r, (ofText source).map bare = t :: ts ∧ (ofText (relay source)).map bare = t.respaced r :: ts := by
  obtain ⟨us, hus, hkind⟩ := exists_spell_eof none false source
  have hterminated : ∀ u ∈ us, u.kind ≠ .unterminated := by
    intro u hu
    have hmem : u ∈ (ofText source).map bare := by
      rw [ofText_bare, hus]
      exact List.mem_append_left _ hu
    obtain ⟨t, ht, rfl⟩ := List.mem_map.mp hmem
    exact h t ht
  have hfilter : (us ++ [eof]).filter (·.kind ≠ .eof) = us := by
    have hall : us.filter (·.kind ≠ .eof) = us := List.filter_eq_self.mpr (by simpa using hkind)
    rw [List.filter_append, hall]
    exact List.append_nil us
  have hwords : relay source = words us := by
    rw [relay_eq, hus, hfilter]
    exact join_eq_words fun u hu => text_ne_nil_of_spell hus (List.cons_ne_nil _ _) u (List.mem_of_mem_head? hu)
  rw [ofText_bare, ofText_bare, hus, hwords]
  cases us with
  | nil => exact ⟨eof, [], false, rfl, spell_nil rfl⟩
  | cons u us =>
    obtain ⟨b', hread⟩ := readAs_words hus (List.cons_ne_nil _ _) hterminated
      (fun _ _ => Lexeme.mayBeSign_none u.spaced) none false [] rfl .nil
    obtain ⟨_, _, -, -, hposition, -, -, -⟩ := exists_lexeme hus (by simp)
    refine ⟨u, us ++ [eof], false, rfl, ?_⟩
    rw [List.append_nil] at hread
    rw [hread, spell_nil (show (gap .outside []).rest = [] from rfl), respaced, hposition]
    rfl

end LessCss.Token
