import TypeSchema.TypeExpr.Parser

/-!
# The grammar of type expressions

`Derives source widens c level ts es top` says that the tokens `ts` are a part of sort `c` of a type expression, that
its trees are `es`, that it stands on `level`, and that `top` is the deepest level in it.  A union in parentheses or in
an argument list stands one level below the union around it, and the `n`th suffix of a part on `level` reaches the
level `level + n`.

A record takes any run of tokens for its key (`isKey`).  Where its arguments are not read as a key and a value it is a
record of anything; `widens` says which arguments are so treated.

* `Derives.level_le`: no part stands above its own level;
* `splitKey?_key`, `key_of_splitKey?`: the parser takes exactly such runs for keys;
* `afterAngles?_append`, `exists_of_afterAngles?`: where the arguments of a record of anything end.
-/

namespace TypeSchema

namespace Parser

/-! ## Pieces without trees -/

/-- The tokens behind `name` go on with it: they add further identifiers behind dots. -/
inductive NameTail : String → List Token → String → Prop
  | done (name : String) : NameTail name [] name
  | part {name part full : String} {dot t : Token} {ts : List Token} : dot.kind = .punct .dot →
      t.kind = .ident part → NameTail (name ++ "." ++ part) ts full → NameTail name (dot :: t :: ts) full

/-- The tokens are identifiers with dots between them. -/
def Names (ts : List Token) (name : String) : Prop :=
  ∃ t us first, ts = t :: us ∧ t.kind = .ident first ∧ NameTail first us name

/-- The tokens are this number of suffixes. -/
inductive Brackets : Nat → List Token → Prop
  | none : Brackets 0 []
  | pair {n : Nat} {opening closing : Token} {ts : List Token} : opening.kind = .punct .openBracket →
      closing.kind = .punct .closeBracket → Brackets n ts → Brackets (n + 1) (opening :: closing :: ts)

/-- The array of arrays with this number of suffixes. -/
def arrayed : Nat → TypeExpr → TypeExpr
  | 0, e => e
  | n + 1, e => arrayed n (.array e)

/-- The tree of these branches; a single one stands for itself. -/
def joined : List TypeExpr → TypeExpr
  | [e] => e
  | es => .union es

theorem branches_eq_joined (inner : Step TypeExpr) : branches inner = do
    let _ ← eat .pipe
    let first ← suffixed inner
    let others ← more .pipe (suffixed inner) (← remaining)
    return joined (first :: others) := by
  refine bind_congr fun _ => bind_congr fun first => bind_congr fun n => bind_congr fun others => ?_
  cases others with
  | nil => rfl
  | cons second others => rfl

theorem plain_keyword (p : Primitive) : plain p.keyword = .primitive p := by
  rw [plain, Primitive.ofKeyword?_keyword]

theorem applied_eq_generic {name : String} {es : List TypeExpr} (h : name = "Array" → es.length ≠ 1) :
    applied name es = .generic name es := by
  unfold applied
  split
  · rw [if_neg fun he => h he rfl]
  · rfl

/-- Whether tokens, with `depth` brackets open, are a key: all brackets close, none closes that is not open, and there
is no comma outside of them. -/
def isKey (depth : Nat) : List Token → Bool
  | [] => depth = 0
  | t :: ts => !(depth = 0 && (t.isPunct .comma || t.kind.isClose)) && isKey (t.kind.nesting depth) ts

theorem splitKey?_key {depth : Nat} {key : List Token} (h : isKey depth key = true) {comma : Token}
    (hc : comma.kind = .punct .comma) (rest : List Token) :
    splitKey? depth (key ++ comma :: rest) = some (key, comma :: rest) := by
  induction key generalizing depth with
  | nil =>
    rw [isKey, decide_eq_true_eq] at h
    simp [splitKey?, h, Token.isPunct, hc]
  | cons t key ih =>
    simp only [isKey, Bool.and_eq_true, Bool.not_eq_true', Bool.and_eq_false_iff, Bool.or_eq_false_iff] at h
    obtain ⟨hfree, hkey⟩ := h
    have h₁ : (decide (depth = 0) && t.isPunct .comma) = false := by
      rcases hfree with h | h <;> simp [h]
    have h₂ : (decide (depth = 0) && t.kind.isClose) = false := by
      rcases hfree with h | h <;> simp [h]
    rw [List.cons_append, splitKey?, h₁, h₂, ih hkey]
    rfl

/-- What the parser takes for a key. -/
theorem key_of_splitKey? {depth : Nat} {ts key rest : List Token} (h : splitKey? depth ts = some (key, rest)) :
    ts = key ++ rest ∧ isKey depth key = true ∧ ∃ comma us, rest = comma :: us ∧ comma.kind = .punct .comma := by
  fun_induction splitKey? depth ts generalizing key rest with
  | case1 => cases h
  | case2 depth t ts hc =>
    obtain ⟨rfl, rfl⟩ := Prod.mk.inj (Option.some.inj h)
    simp only [Bool.and_eq_true, decide_eq_true_eq, Token.isPunct, beq_iff_eq] at hc
    exact ⟨rfl, by simp [isKey, hc.1], t, ts, rfl, hc.2⟩
  | case3 => cases h
  | case4 depth t ts hcomma hclose ih =>
    obtain ⟨⟨key', rest'⟩, hs, he⟩ := Option.map_eq_some_iff.1 h
    obtain ⟨rfl, rfl⟩ := Prod.mk.inj he
    obtain ⟨rfl, hkey, hrest⟩ := ih hs
    refine ⟨rfl, ?_, hrest⟩
    simp only [Bool.and_eq_true, decide_eq_true_eq, not_and, Bool.not_eq_true] at hcomma hclose
    rw [isKey, hkey, Bool.and_true, Bool.not_eq_true', Bool.and_eq_false_iff, Bool.or_eq_false_iff]
    by_cases hd : depth = 0
    · exact .inr ⟨hcomma hd, hclose hd⟩
    · exact .inl (by simp [hd])

/-- What follows the arguments does not matter for where they end. -/
theorem afterAngles?_append {depth : Nat} {ts rest : List Token} (h : afterAngles? depth ts = some rest)
    (more : List Token) : afterAngles? depth (ts ++ more) = some (rest ++ more) := by
  fun_induction afterAngles? depth ts with
  | case1 => cases h
  | case2 depth t ts ho ih => rw [List.cons_append, afterAngles?, if_pos ho, ih h]
  | case3 depth t ts ho hc hd =>
    obtain rfl := Option.some.inj h
    rw [List.cons_append, afterAngles?, if_neg ho, if_pos hc, if_pos hd]
  | case4 depth t ts ho hc hd ih => rw [List.cons_append, afterAngles?, if_neg ho, if_pos hc, if_neg hd, ih h]
  | case5 depth t ts ho hc ih => rw [List.cons_append, afterAngles?, if_neg ho, if_neg hc, ih h]

theorem exists_of_afterAngles? {depth : Nat} {ts rest : List Token} (h : afterAngles? depth ts = some rest) :
    ∃ us, ts = us ++ rest ∧ afterAngles? depth us = some [] := by
  fun_induction afterAngles? depth ts with
  | case1 => cases h
  | case2 depth t ts ho ih =>
    obtain ⟨us, rfl, hu⟩ := ih h
    exact ⟨t :: us, rfl, by rw [afterAngles?, if_pos ho, hu]⟩
  | case3 depth t ts ho hc hd =>
    obtain rfl := Option.some.inj h
    exact ⟨[t], rfl, by rw [afterAngles?, if_neg ho, if_pos hc, if_pos hd]⟩
  | case4 depth t ts ho hc hd ih =>
    obtain ⟨us, rfl, hu⟩ := ih h
    exact ⟨t :: us, rfl, by rw [afterAngles?, if_neg ho, if_pos hc, if_neg hd, hu]⟩
  | case5 depth t ts ho hc ih =>
    obtain ⟨us, rfl, hu⟩ := ih h
    exact ⟨t :: us, rfl, by rw [afterAngles?, if_neg ho, if_neg hc, hu]⟩

/-! ## Derivations -/

/-- The sorts of parts that have trees. -/
inductive Category where
  | union
  | suffixed
  | primary
  /-- Parts of one sort with separators between them. -/
  | several (item : Category)

namespace Category

/-- What stands between several parts of this sort: branches have bars, arguments have commas. -/
def separator : Category → Punct
  | suffixed => .pipe
  | _ => .comma

/-- The level of a part that is read at this depth: reading a union goes one level deeper. -/
def level (depth : Nat) : Category → Nat
  | union => depth + 1
  | several c => c.level depth
  | _ => depth

end Category

/-- Derivations of the grammar; the last number is the deepest level. -/
inductive Derives (source : String) (widens : List Token → Prop) :
    Category → Nat → List Token → List TypeExpr → Nat → Prop
  | union {level top : Nat} {ts : List Token} {es : List TypeExpr} :
      Derives source widens (.several .suffixed) level ts es top → Derives source widens .union level ts [joined es] top
  | barred {level top : Nat} {bar : Token} {ts : List Token} {es : List TypeExpr} : bar.kind = .punct .pipe →
      Derives source widens (.several .suffixed) level ts es top →
      Derives source widens .union level (bar :: ts) [joined es] top
  | suffixed {level top n : Nat} {ts us : List Token} {e : TypeExpr} :
      Derives source widens .primary level ts [e] top → Brackets n us →
      Derives source widens .suffixed level (ts ++ us) [arrayed n e] (max top (level + n))
  | group {level top : Nat} {opening closing : Token} {ts : List Token} {e : TypeExpr} :
      opening.kind = .punct .openParen → Derives source widens .union (level + 1) ts [e] top →
      closing.kind = .punct .closeParen → Derives source widens .primary level (opening :: (ts ++ [closing])) [e] top
  | literal {level : Nat} {t : Token} {value : String} {quote : Char} : t.kind = .str value quote →
      Derives source widens .primary level [t] [.literal ⟨value, quote⟩] level
  | plain {level : Nat} {ts : List Token} {name : String} : Names ts name →
      Derives source widens .primary level ts [plain name] level
  | applied {level top : Nat} {ts us : List Token} {name : String} {opening closing : Token} {es : List TypeExpr} :
      Names ts name → name ≠ "Record" → opening.kind = .punct .openAngle →
      Derives source widens (.several .union) (level + 1) us es top → closing.kind = .punct .closeAngle →
      Derives source widens .primary level (ts ++ opening :: (us ++ [closing])) [applied name es] top
  | record {level top : Nat} {ts us key : List Token} {text : String} {opening comma closing : Token} {e : TypeExpr} :
      Names ts "Record" → opening.kind = .punct .openAngle → isKey 0 key = true → keyText? source key = some text →
      comma.kind = .punct .comma → Derives source widens .union (level + 1) us [e] top →
      closing.kind = .punct .closeAngle →
      Derives source widens .primary level (ts ++ opening :: (key ++ comma :: (us ++ [closing]))) [.record text e] top
  | anyRecord {level : Nat} {ts us : List Token} {opening : Token} : Names ts "Record" →
      opening.kind = .punct .openAngle → afterAngles? 1 us = some [] → widens us →
      Derives source widens .primary level (ts ++ opening :: us) [.anyRecord] level
  | one {c : Category} {level top : Nat} {ts : List Token} {e : TypeExpr} : Derives source widens c level ts [e] top →
      Derives source widens (.several c) level ts [e] top
  | more {c : Category} {level top top' : Nat} {ts us : List Token} {sep : Token} {e : TypeExpr}
      {es : List TypeExpr} : Derives source widens c level ts [e] top → sep.kind = .punct c.separator →
      Derives source widens (.several c) level us es top' →
      Derives source widens (.several c) level (ts ++ sep :: us) (e :: es) (max top top')

/-- The tokens are a whole type expression on the first level. -/
inductive DerivesType (source : String) (widens : List Token → Prop) : List Token → TypeExpr → Nat → Prop
  | bare {ts : List Token} {e : TypeExpr} {top : Nat} : Derives source widens .union 1 ts [e] top →
      DerivesType source widens ts e top
  | optional {ts : List Token} {question : Token} {e : TypeExpr} {top : Nat} :
      Derives source widens .union 1 ts [e] top → question.kind = .punct .question →
      DerivesType source widens (ts ++ [question]) (.optional e) top

/-- No part reaches less deep than its own level. -/
theorem Derives.level_le {source : String} {widens : List Token → Prop} {c : Category} {level top : Nat}
    {ts : List Token} {es : List TypeExpr} (h : Derives source widens c level ts es top) : level ≤ top := by
  induction h with
  | union _ ih | barred _ _ ih | one _ ih => exact ih
  | suffixed | more => omega
  | group | applied | record => omega
  | literal | plain | anyRecord => exact Nat.le_refl _

/-- Whether a part of this sort cannot start with a bar. -/
def Category.isTight : Category → Bool
  | union => false
  | several c => c.isTight
  | _ => true

/-- No part is empty, and only unions start with a bar. -/
theorem Derives.exists_head {source : String} {widens : List Token → Prop} {c : Category} {level top : Nat}
    {ts : List Token} {es : List TypeExpr} (h : Derives source widens c level ts es top) :
    ∃ t us, ts = t :: us ∧ (c.isTight = true → t.kind ≠ .punct .pipe) := by
  induction h with
  | union _ ih =>
    obtain ⟨t, us, rfl, -⟩ := ih
    exact ⟨t, us, rfl, by simp [Category.isTight]⟩
  | barred => exact ⟨_, _, rfl, by simp [Category.isTight]⟩
  | suffixed _ _ ih | more _ _ _ ih _ =>
    obtain ⟨t, us, rfl, ht⟩ := ih
    exact ⟨t, _, rfl, ht⟩
  | one _ ih => exact ih
  | group ho => exact ⟨_, _, rfl, by simp [ho]⟩
  | literal ht => exact ⟨_, _, rfl, by simp [ht]⟩
  | plain hn | applied hn | record hn | anyRecord hn =>
    obtain ⟨t, us, first, rfl, ht, -⟩ := hn
    exact ⟨t, _, rfl, by simp [ht]⟩

end Parser

end TypeSchema
