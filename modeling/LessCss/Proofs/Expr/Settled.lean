import LessCss.Proofs.Expr.Arithmetic
import LessCss.Proofs.Expr.Formed
import LessCss.Proofs.Number.FourPlaces
import LessCss.Proofs.Token.Solid
/-!
Values with solid texts.

A value is settled if what it is made of is solid, and then so is its text (`Value.Settled.render`). From settled values
of the variables an expression makes a settled value (`Expr.Formed.settled`), if it is formed in a clear row: nothing
in the row is escaped, and no variable is glued to another token in the arguments of a function.
-/
namespace LessCss

open Token (Piece Leaves)

variable {quiet : Prop}

namespace FourPlaces

theorem isIdle_render (v : Float) : ∀ c ∈ render v, isIdle c = true := by
  cases h : (fields v).isFinite with
  | true =>
    rw [render_of_finite h]
    intro c hc
    exact isIdle_of_isInner (Lexeme.isInner_of_isNumeric (Lexeme.isNumeric_numeral (numeral_wellFormed v) c hc))
  | false =>
    rcases render_of_not_finite h with hv | hv | hv <;> rw [hv] <;> exact List.all_eq_true.mp (by rfl)

end FourPlaces

theorem isIdle_unit {text unit : Text} {v : Float} (h : Measure.parse? text = some (v, unit)) :
    ∀ c ∈ unit, isIdle c = true := by
  obtain ⟨m, hm, -, -, rfl⟩ := Measure.wellFormed_of_parse? h
  exact fun c hc => isIdle_of_isInner (Lexeme.isInner_unit hm c hc)

namespace Value

/-- What a value is made of is solid. -/
inductive Settled (quiet : Prop) : Value → Prop
  | dimension {d : Dimension} (hunit : ∀ c ∈ d.unit, isIdle c = true) (htext : ∀ text ∈ d.text, Solid quiet text) :
    Settled quiet (.dimension d)
  | keyword {text} (h : Solid quiet text) : Settled quiet (.keyword text)
  | list {vs} (separator) (h : ∀ v ∈ vs, Settled quiet v) : Settled quiet (.list vs separator)

variable {v w : Value}

theorem Settled.render (h : v.Settled quiet) : Solid quiet v.render := by
  induction h with
  | @dimension d hunit htext =>
    rw [Value.render, Dimension.render]
    cases hd : d.text with
    | some text => exact htext text hd
    | none => exact .of_idle (List.forall_mem_append.mpr ⟨FourPlaces.isIdle_render d.value, hunit⟩)
  | keyword h => exact h
  | list separator _ ih =>
    rw [Value.render, renderAll_eq_map]
    exact .join separator (List.forall_mem_map.mpr ih)

theorem Settled.negate (h : v.Settled quiet) : v.negate.Settled quiet := by
  have hminus : Solid quiet ('-' :: v.render) := (Solid.single (by decide)).append h.render
  cases h with
  | dimension hunit => exact .dimension hunit nofun
  | keyword | list => exact .keyword hminus

theorem Settled.operate {op : Operator} {p : Position} {result : Value} (hv : v.Settled quiet)
    (hw : w.Settled quiet) (h : operate op p v w = .ok result) : result.Settled quiet := by
  obtain ⟨a, b, d, rfl, rfl, rfl, hd⟩ := operate_eq_ok h
  obtain ⟨htext, hunit⟩ := Dimension.of_operate? hd
  cases hv with
  | dimension ha =>
    cases hw with
    | dimension hb =>
      refine .dimension ?_ (by simp [htext])
      rcases Dimension.commonUnit_eq a b with hcommon | hcommon <;> rw [hunit, hcommon]
      · exact ha
      · exact hb

end Value

/-- These tokens stand between the parentheses of a function that the row calls. -/
def Tokens.Passes (ts args : List Token) : Prop :=
  ∃ f us rest, f :: us <:+ ts ∧ f.kind = .function ∧ closeParen? (fun _ => false) 0 us = some (args, rest)

variable {ts us args : List Token}

theorem Tokens.Passes.mono (h : Passes us args) (hus : us <:+: ts) : Passes ts args := by
  obtain ⟨f, vs, rest, ⟨before, rfl⟩, hk, hclose⟩ := h
  obtain ⟨front, back, rfl⟩ := hus
  obtain ⟨close, hcloses, rfl, hdepth⟩ := closeParen?_eq_some hclose
  exact ⟨f, args ++ close :: (rest ++ back), rest ++ back, ⟨front ++ before, by simp⟩, hk,
    closeParen?_append hcloses rfl hdepth⟩

theorem Tokens.Passes.unbroken (h : Passes ts args) : args <:+: ts := by
  obtain ⟨f, us, rest, hus, -, hclose⟩ := h
  obtain ⟨close, -, rfl, -⟩ := closeParen?_eq_some hclose
  have hargs : args <:+: f :: (args ++ close :: rest) := ⟨[f], close :: rest, by simp⟩
  exact hargs.trans hus.isInfix

/-- A row in which solid texts can be put in the place of variables. -/
structure Token.Clear (quiet : Prop) (ts : List Token) : Prop where
  row : Row ts
  plain : ∀ t ∈ ts, t.isDelim '~' = false
  calls : ∀ args, Tokens.Passes ts args → ¬Glues args
  quotients : quiet → ∀ args, Tokens.Passes ts args → ¬Slashed args

namespace Expr

variable {lookup : Lookup} {e : Expr} {v : Value}

/-- Whatever is found is settled. -/
def Settles (quiet : Prop) (lookup : Lookup) : Prop := ∀ ⦃name p v⦄, lookup name p = .ok v → v.Settled quiet

theorem leaves_argumentPiece (h : Settles quiet lookup) {t : Token} {q : Piece} (hq : argumentPiece lookup t = .ok q) :
    Leaves quiet t q := by
  unfold argumentPiece at hq
  split at hq
  · next hk =>
    obtain ⟨v, hv, rfl⟩ := map_eq_ok hq
    exact ⟨rfl, fun hne => absurd hk hne, fun _ => (h hv).render⟩
  · next hk =>
    obtain rfl := Except.ok.inj hq
    exact ⟨rfl, fun _ => rfl, fun heq => absurd heq hk⟩

theorem leaves_arguments (h : Settles quiet lookup) {inner : List Piece} (hinner : args.mapM (argumentPiece lookup) = .ok inner) :
    List.Forall₂ (Leaves quiet) args inner := by
  induction args generalizing inner with
  | nil =>
    obtain rfl := Except.ok.inj hinner
    exact .nil
  | cons t args ih =>
    obtain ⟨q, inner, hq, hrest, rfl⟩ := mapM_cons_eq_ok hinner
    exact .cons (leaves_argumentPiece h hq) (ih hrest)

theorem Leaf.settled {t : Token} {rest : List Token} (h : Leaf t us e rest) (hus : t :: us <:+ ts)
    (hts : Token.Clear quiet ts) (hlookup : Settles quiet lookup) (hv : e.evaluate lookup = .ok v) : v.Settled quiet := by
  have ht : t ∈ ts := hus.subset List.mem_cons_self
  have hlexeme := hts.row.lexeme t ht
  have hterminated := hts.row.terminated t ht
  have hsolid : t.kind ≠ .atKeyword → t.kind ≠ .delim → t.kind ≠ .operator → Solid quiet t.text :=
    hlexeme.solid hterminated
  cases h with
  | number hk hm =>
    obtain rfl := Except.ok.inj hv
    refine .dimension (isIdle_unit hm) ?_
    rintro _ ⟨⟩
    exact hsolid (by simp [hk]) (by simp [hk]) (by simp [hk])
  | keyword hk =>
    obtain rfl := Except.ok.inj hv
    refine .keyword (hsolid ?_ ?_ ?_) <;> (intro heq; simp [heq] at hk)
  | reference hk => exact hlookup hv
  | @function us args after hk hclose =>
    obtain ⟨inner, hinner, hv⟩ := bind_eq_ok hv
    obtain rfl := Except.ok.inj hv
    have hpasses : Tokens.Passes ts args := ⟨t, us, rest, hus, hk, hclose⟩
    have hfirm : Firm quiet (Token.joinPieces inner) :=
      Token.firm_joinPieces (leaves_arguments hlookup hinner) (hts.row.mono hpasses.unbroken) (hts.calls args hpasses)
        fun hq => hts.quotients hq args hpasses
    have htext : t.name ++ '(' :: Token.joinPieces inner ++ [')'] = t.text ++ (Token.joinPieces inner ++ [')']) := by
      rw [hlexeme.function hk]
      simp
    have hclosing : Apart quiet (Token.joinPieces inner) [')'] := by
      refine ⟨fun _ => rfl, ?_⟩
      rintro - - c ⟨⟩
      decide
    rw [htext]
    exact .keyword (.around (hsolid (by simp [hk]) (by simp [hk]) (by simp [hk])) hlexeme.text_ne_nil hfirm hclosing
      (.single (by decide)) (List.cons_ne_nil _ _))
  | escaped htilde => exact absurd htilde (by simp [hts.plain t ht])

/-- The number before a slash is a token of the row. -/
theorem Formed.number {value : Float} {unit text : Text} (h : Formed ts (.number value unit text)) :
    ∃ t ∈ ts, t.kind = .number ∧ t.text = text := by
  cases h with
  | @leaf t us _ _ hus h =>
    cases h with
    | number hk hm => exact ⟨t, hus.subset List.mem_cons_self, hk, rfl⟩

theorem solid_number {t : Token} (hts : Token.Clear quiet ts) (ht : t ∈ ts) (hk : t.kind = .number) : Solid quiet t.text :=
  (hts.row.lexeme t ht).solid (by simp [hk]) (by simp [hk]) (by simp [hk]) (by simp [hk])

theorem settled_ratio {t u : Token} (hts : Token.Clear quiet ts) (ht : t ∈ ts) (hk : t.kind = .number) (hu : u ∈ ts)
    (hku : u.kind = .number) : Solid quiet (t.text ++ '/' :: u.text) := by
  have hslash : Firm quiet ['/'] := .plain (by decide) nofun (fun _ _ => nofun) .nil
  have hapart : Apart quiet ['/'] u.text := ⟨nofun, fun _ _ => (solid_number hts hu hku).head⟩
  exact .around (solid_number hts ht hk) (hts.row.lexeme t ht).text_ne_nil hslash hapart (solid_number hts hu hku)
    (hts.row.lexeme u hu).text_ne_nil

theorem evaluateAll_mem {es : List Expr} {vs : List Value} (h : evaluateAll lookup es = .ok vs) :
    ∀ v ∈ vs, ∃ e ∈ es, e.evaluate lookup = .ok v := by
  induction es generalizing vs with
  | nil =>
    obtain rfl := Except.ok.inj h
    exact nofun
  | cons e es ih =>
    obtain ⟨v, hv, h⟩ := bind_eq_ok h
    obtain ⟨ws, hws, heq⟩ := bind_eq_ok h
    obtain rfl := Except.ok.inj heq
    refine List.forall_mem_cons.mpr ⟨⟨e, .head _, hv⟩, fun w hw => ?_⟩
    obtain ⟨e', he', hw⟩ := ih hws w hw
    exact ⟨e', .tail _ he', hw⟩

/-- From settled values a settled value is made. -/
theorem Formed.settled (h : Formed ts e) (hts : Token.Clear quiet ts) (hlookup : Settles quiet lookup)
    (hv : e.evaluate lookup = .ok v) : v.Settled quiet := by
  induction h generalizing v with
  | leaf hus h => exact h.settled hus hts hlookup hv
  | @ratio _ _ _ u h hu hku =>
    obtain ⟨t, ht, hk, rfl⟩ := h.number
    obtain rfl := Except.ok.inj hv
    exact .keyword (settled_ratio hts ht hk hu hku)
  | negate _ ih =>
    obtain ⟨w, hw, heq⟩ := bind_eq_ok hv
    obtain rfl := Except.ok.inj heq
    exact (ih hw).negate
  | binary op p _ _ ihl ihr =>
    obtain ⟨a, ha, hv⟩ := bind_eq_ok hv
    obtain ⟨b, hb, hv⟩ := bind_eq_ok hv
    exact (ihl ha).operate (ihr hb) hv
  | list separator _ ih =>
    obtain ⟨vs, hvs, heq⟩ := bind_eq_ok hv
    obtain rfl := Except.ok.inj heq
    refine .list separator fun v hv => ?_
    obtain ⟨e, he, hev⟩ := evaluateAll_mem hvs v hv
    exact ih e he hev

end Expr

/-- What is read from a clear row evaluates to a settled value. -/
theorem Expr.settled_of_ofTokens {lookup : Lookup} {v : Value} (hts : Token.Clear quiet ts) (hlookup : Settles quiet lookup)
    (h : (ofTokens ts >>= fun e => e.evaluate lookup) = .ok v) : v.Settled quiet := by
  obtain ⟨e, he, hv⟩ := bind_eq_ok h
  exact (ofTokens_formed he).settled hts hlookup hv

end LessCss
