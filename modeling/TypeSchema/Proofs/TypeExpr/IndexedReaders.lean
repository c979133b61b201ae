import Mathlib
import TypeSchema.Proofs.TypeExpr.IndexedSteps

/-!
# Readers by index

A reader by index does what the parser does, and its call is noted (`arrives_call`): it comes back to its level, and a
union that is read inside of another one starts further behind, since a bracket or a key stands between their starts.
The reader of unions is treated by induction on the levels left (`inner_union`).

* `Ready.runs`: asked for a type expression again and again, the machine never gets stuck;
* `Ready.runs_of_ok`: once there was one, only the end of input is left;
* `runs_keep_bounds`: the places and calls of all runs are within their bounds.
-/

namespace TypeSchema

namespace Parser

/-- What a parser gives that is asked for a type expression again and again, and the parsers it leaves behind. -/
def runs : Nat → Parser → List (Except Error TypeExpr × Parser)
  | 0, _ => []
  | n + 1, p => p.run :: runs n p.run.2

namespace Indexed

variable {α : Type} {source : String} {log : List Call} {k d start : Nat} {around : Option Nat} {m n : Machine}
  {p q : Parser} {turns : Nat} {reader : Reader} {x : Option (Except ParseFailure α × Machine)}
  {y : EStateM.Result ParseFailure Parser α}

/-! ## Calls -/

theorem Ready.here (h : Ready source log k around d m p) : Ready source log m.place.pos around d m p :=
  { h with le_pos := Nat.le_refl _ }

theorem Ready.opened (h : Ready source log k around d m p) (reader : Reader) :
    Ready source log k (m.opened reader).around d (m.opened reader) p := by
  unfold Machine.opened
  split
  · exact { h with around_eq := rfl, kept := ⟨h.kept.passed, h.kept.calls⟩ }
  · exact { h with around_eq := rfl }

/-- The call is one of the reader, made by the machine. -/
structure Call.IsOf (reader : Reader) (m : Machine) (c : Call) : Prop where
  reader_eq : c.reader = reader
  entry_eq : c.entry = m.place
  around_eq : c.around = m.around

/-- A call that comes back to its level within the bounds is noted. -/
theorem Ready.closed {ok : Bool} {around' : Option Nat} (h : Ready source log k around d m p)
    (hn : Ready source log k around' d n q)
    (hstarts : reader = .union → ∀ start, around = some start → start < m.place.pos)
    (hadvances : reader ∈ [.union, .suffixed, .primary] → ok = true → m.place.pos < n.place.pos) :
    ∃ c : Call, c.IsOf reader m ∧ Ready source (c :: log) k around d (n.closed m reader ok) q := by
  have hcall : Call.Kept (eofIndex source) ⟨reader, m.place, n.place, ok, m.around⟩ :=
    ⟨hn.place_depth.trans h.place_depth.symm, h.pos_le, hn.pos_le, hadvances, h.around_eq ▸ hstarts⟩
  have hkept : (n.closed m reader ok).Kept (eofIndex source) := by
    refine ⟨hn.kept.passed, fun c hc => ?_⟩
    rcases List.mem_cons.1 hc with rfl | hc
    · exact hcall
    · exact hn.kept.calls c hc
  exact ⟨_, ⟨rfl, rfl, rfl⟩, { hn with around_eq := h.around_eq, noted := hn.noted.cons_cons _, kept := hkept }⟩

/-- A reader whose body does what the parser does follows it, and the call is noted. -/
theorem arrives_call {body : Walk α} (h : Ready source log k around d m p)
    (hstarts : reader = .union → ∀ start, around = some start → start < m.place.pos)
    (htakes : reader ∈ [.union, .suffixed, .primary] → ∀ a q, y = .ok a q → q.rest.length < p.rest.length)
    (hbody : Arrives source log k (m.opened reader).around d (body (m.opened reader)) y) :
    ∃ c : Call, c.IsOf reader m ∧ Arrives source (c :: log) k around d (call reader body m) y := by
  obtain ⟨n, hn, hready⟩ := hbody
  have hadvances : reader ∈ [.union, .suffixed, .primary] → (given y).isOk = true → m.place.pos < n.place.pos := by
    intro hreader hok
    cases y with
    | ok a q =>
      have hlt := htakes hreader a q rfl
      have hplace := h.covers.stops
      have hplace' := hready.covers.stops
      dsimp only [after] at hplace'
      omega
    | error e q => cases hok
  obtain ⟨c, hc, hclosed⟩ := h.closed hready hstarts hadvances
  refine ⟨c, hc, n.closed m reader (given y).isOk, ?_, hclosed⟩
  rw [call, hn]
  rfl

theorem Arrives.forget {c : Call} (h : Arrives source (c :: log) k around d x y) :
    Arrives source log k around d x y := by
  obtain ⟨n, hn, hready⟩ := h
  exact ⟨n, hn, { hready with noted := (List.sublist_cons_self c log).trans hready.noted }⟩

/-- A reader of something inside of a union. -/
theorem arrives_part {body : Walk α} (hreader : reader ≠ .union) (h : Ready source log k around d m p)
    (htakes : reader ∈ [.union, .suffixed, .primary] → ∀ a q, y = .ok a q → q.rest.length < p.rest.length)
    (hbody : Arrives source log k around d (body m) y) :
    Arrives source log k around d (call reader body m) y := by
  have hopened : m.opened reader = m := if_neg hreader
  have hbody' : Arrives source log k (m.opened reader).around d (body (m.opened reader)) y := by
    rwa [hopened, h.around_eq]
  obtain ⟨c, -, hcall⟩ := arrives_call h (fun hunion => absurd hunion hreader) htakes hbody'
  exact hcall.forget

theorem Ready.takes (h : Ready source log k around d m p) {c : Category} {step : Step TypeExpr} (hsound : Sound c step)
    (e : TypeExpr) (q : Parser) (hs : step p = .ok e q) : q.rest.length < p.rest.length := by
  obtain ⟨ts, top, hts, hder, -⟩ := hsound.took (h.depth_eq ▸ h.depth_le) hs
  obtain ⟨t, us, rfl, -⟩ := hder.exists_head
  rw [hts, List.length_append, List.length_cons]
  omega

/-! ## Readers -/

/-- Behind a separator there is an item. -/
theorem more_ne_nil {separator : Punct} {item : Step α} {bound : Nat} {as : List α}
    (hk : p.current.kind = .punct separator) (hbound : p.rest.length ≤ bound)
    (h : Parser.more separator item bound p = .ok as q) : as ≠ [] := by
  obtain ⟨t, rest, hr, ht⟩ := rest_of_current hk (by simp)
  rw [hr, List.length_cons] at hbound
  obtain ⟨bound, rfl⟩ := Nat.exists_eq_succ_of_ne_zero (by omega : bound ≠ 0)
  rw [Parser.more, bind_of_ok (eat_head hr ht)] at h
  obtain ⟨a, r, -, h⟩ := bind_eq_ok h
  obtain ⟨as', r', -, h⟩ := bind_eq_ok h
  obtain ⟨rfl, -⟩ := pure_eq_ok h
  exact List.cons_ne_nil a as'

/-- The reader `w` of the unions inside does what the parser does, wherever it stands behind the start of the union
around. -/
structure Inner (source : String) (d : Nat) (w : Walk TypeExpr) (inner : Step TypeExpr) : Prop where
  sound : Sound .union inner
  tidy : Tidy inner
  follows {log : List Call} {k start : Nat} : start < k → Follows source log k (some start) d w inner

section Readers

variable (hturns : eofIndex source < turns)

include hturns

/-- Without a key neither gives arguments; the machine stands somewhere behind the parser. -/
theorem recordArguments_keyless (w : Walk TypeExpr) (inner : Step TypeExpr) (h : Ready source log k around d m p)
    (hkey : keyAhead? p = none) :
    Parser.recordArguments inner p = .ok none p ∧ ∃ n rest, Ready source log k around d n { p with rest } ∧
      recordArguments source (tokens source) turns w m = some (.ok none, n) := by
  constructor
  · rcases recordArguments_cases inner p with hcase | ⟨key, rest, text, hs, hk⟩
    · exact hcase
    · rw [keyAhead?, hs, Option.bind_some, hk] at hkey
      cases hkey
  · obtain ⟨n, rest, hn, hready, -⟩ := key_eq (h.length_lt hturns) h
    rw [hkey] at hn
    have hcall : Arrives source log k around d (recordArguments source (tokens source) turns w m)
        (.ok none { p with rest }) := by
      rw [recordArguments]
      refine arrives_part (by simp) h (by simp) ?_
      rw [walk_of_ok hn]
      exact ⟨n, rfl, hready⟩
    obtain ⟨n', hn', hready'⟩ := hcall
    exact ⟨n', rest, hready', hn'⟩

/-- Back where the arguments start, both pass over them. -/
theorem Ready.widen (h : Ready source log k around d m p) {rest : List Token}
    (hn : Ready source log k around d n { q with rest }) :
    Arrives source log k around d ((do skipAngles (tokens source) 0 turns; return .anyRecord : Walk TypeExpr)
        (n.goTo { n.place with pos := m.place.pos }))
      ((do Parser.skipAngles; return .anyRecord : Step TypeExpr) { q with rest := p.rest }) := by
  have hback : Ready source log k around d (n.goTo { n.place with pos := m.place.pos }) { q with rest := p.rest } :=
    { hn with
      covers := h.covers
      le_pos := h.le_pos
      kept := hn.kept.goTo h.pos_le (hn.place_depth ▸ hn.depth_le) }
  have hskip : Arrives source log k around d _ (Parser.skipAngles _) :=
    arrives_skipAngles 0 (hback.length_lt hturns) hback
  exact hskip.bind fun _ n' q' _ hq' => follows_pure _ n' q' hq'

variable {w : Walk TypeExpr} {inner : Step TypeExpr} (hinner : Inner source d w inner)

include hinner

theorem arrives_recordArguments (hstart : start < k) (h : Ready source log k (some start) d m p) {text : String}
    (hkey : keyAhead? p = some text) :
    Arrives source log k (some start) d (recordArguments source (tokens source) turns w m)
      (Parser.recordArguments inner p) := by
  obtain ⟨n, rest, hn, hready, hrest⟩ := key_eq (h.length_lt hturns) h
  obtain ⟨⟨key, rest'⟩, hs, hk⟩ := Option.bind_eq_some_iff.1 hkey
  obtain rfl := hrest _ hs
  rw [hkey] at hn
  rw [recordArguments, recordArguments_some hs hk]
  refine arrives_part (by simp) h (by simp) ?_
  rw [walk_of_ok hn]
  refine (follows_expect .comma).bind (fun _ => (hinner.follows hstart).bind fun value => ?_) n _ hready
  exact (follows_expect .closeAngle).bind fun _ => follows_pure (some (text, value))

theorem follows_generic (hstart : start < k) (name : String) :
    Follows source log k (some start) d (generic source (tokens source) turns w name)
      (if name = "Record" then record inner else do return applied name (← arguments inner)) := by
  intro m p h
  rw [generic]
  refine arrives_part (by simp) h (by simp) ?_
  by_cases hrecord : name = "Record"
  · rw [if_pos hrecord, if_pos hrecord]
    have hadvance : Parser.advance p = .ok () { p with rest := p.rest.tail } := rfl
    obtain ⟨m', hm', h'⟩ := (follows_advance m p h).of_ok hadvance
    rw [walk_of_ok hm', record, bind_of_ok hadvance]
    cases hkey : keyAhead? { p with rest := p.rest.tail } with
    | none =>
      obtain ⟨hnone, n, rest, hready, hn⟩ := recordArguments_keyless hturns w inner h' hkey
      rw [hnone, hn]
      exact h.widen hturns hready
    | some text =>
      have hcall := arrives_recordArguments hturns hinner hstart h' hkey
      cases hy : Parser.recordArguments inner { p with rest := p.rest.tail } with
      | ok r q =>
        obtain ⟨n, hn, hready⟩ := hcall.of_ok hy
        rw [hn]
        cases r with
        | none => exact h.widen hturns hready
        | some arguments => exact ⟨n, rfl, hready⟩
      | error e q =>
        obtain ⟨n, hn, hready⟩ := hcall.of_error hy
        rw [hn]
        show Arrives _ _ _ _ _ (if n.place.tooDeep = true then _ else _) (if q.tooDeep = true then _ else _)
        rw [hready.tooDeep_eq]
        by_cases hdeep : q.tooDeep = true
        · rw [if_pos hdeep, if_pos hdeep]
          exact ⟨n, rfl, hready⟩
        · rw [if_neg hdeep, if_neg hdeep]
          exact h.widen hturns hready
  · rw [if_neg hrecord, if_neg hrecord, arguments]
    simp only [bind_assoc, pure_bind]
    refine follows_advance.bind (fun _ => (hinner.follows hstart).bind fun first m p h => ?_) m p h
    rw [bind_of_ok (remaining_eq p)]
    have hmore := arrives_more .comma (hinner.follows hstart) hinner.tidy (h.length_lt hturns) (Nat.le_refl _) h
    exact hmore.bind fun others n q _ hq => (follows_expect .closeAngle).bind (fun _ => follows_pure _) n q hq

theorem follows_named (hstart : start < k) (first : String) :
    Follows source log k (some start) d (named source (tokens source) turns w first) (Parser.named inner first) := by
  intro m p h
  rw [named]
  refine arrives_part (by simp) h (by simp) ?_
  rw [Parser.named, bind_of_ok (remaining_eq p)]
  refine (arrives_dotted first (h.length_lt hturns) (Nat.le_refl _) h).bind fun name n q _ hq => ?_
  rw [walk_of_ok (current_eq hq), bind_of_ok (peek_eq q)]
  by_cases ho : q.current.kind = .punct .openAngle
  · rw [if_pos ho, if_pos ho]
    exact follows_generic hturns hinner hstart name n q hq
  · rw [if_neg ho, if_neg ho]
    exact follows_pure _ n q hq

theorem follows_primary (hstart : start ≤ k) :
    Follows source log k (some start) d (primary source (tokens source) turns w) (Parser.primary inner) := by
  intro m p h
  rw [primary]
  refine arrives_part (by simp) h (fun _ => h.takes (sound_primary hinner.sound)) ?_
  rw [walk_of_ok (current_eq h), Parser.primary, bind_of_ok (peek_eq p)]
  -- behind the first token the machine stands behind the start of the union
  have hbehind {kind : TokenKind} (hk : p.current.kind = kind) (he : kind ≠ .eof) {w : Walk TypeExpr}
      {step : Step TypeExpr} (hw : ∀ k', start < k' → Follows source log k' (some start) d w step) :
      Arrives source log k (some start) d ((advance (tokens source) >>= fun _ => w) m)
        ((Parser.advance >>= fun _ => step) p) := by
    obtain ⟨t, rest, hr, -⟩ := rest_of_current hk he
    obtain ⟨n, hn, hready⟩ := h.advance hr
    have hle := h.le_pos
    rw [walk_of_ok hn, bind_of_ok (advance_head hr)]
    exact (hw _ (by omega) n _ hready).mono (by omega)
  cases hk : p.current.kind with
  | str value quote => exact hbehind hk (by simp) fun _ _ => follows_pure _
  | ident name => exact hbehind hk (by simp) fun _ hstart' => follows_named hturns hinner hstart' name
  | punct x =>
    cases x with
    | openParen =>
      refine hbehind hk (by simp) fun _ hstart' => ?_
      exact (hinner.follows hstart').bind fun _ => (follows_expect _).bind fun _ => follows_pure _
    | _ => exact follows_fail _ m p h
  | _ => exact follows_fail _ m p h

theorem follows_suffixed (hstart : start ≤ k) :
    Follows source log k (some start) d (suffixed source (tokens source) turns w) (Parser.suffixed inner) := by
  intro m p h
  rw [suffixed]
  refine arrives_part (by simp) h (fun _ => h.takes (sound_suffixed hinner.sound)) ?_
  refine (follows_primary hturns hinner hstart m p h).bind fun e n q _ hq => ?_
  obtain ⟨count, n', hn', hready⟩ := counts_suffixes (d := d) e 0 (hq.length_lt hturns) (Nat.le_refl _) hq
  rw [onLevel_eq, bind_of_ok (remaining_eq q), hq.depth_eq, hn']
  exact hready.arrives

theorem follows_branches (hstart : start ≤ k) :
    Follows source log k (some start) d (branches source (tokens source) turns w) (Parser.branches inner) := by
  rw [branches]
  refine (follows_eat .pipe).bind fun _ => (follows_suffixed hturns hinner hstart).bind fun first m p h => ?_
  rw [walk_of_ok (current_eq h), bind_of_ok (remaining_eq p)]
  by_cases hk : p.current.kind = .punct .pipe
  · rw [if_pos hk]
    have hmore := arrives_more .pipe (follows_suffixed hturns hinner hstart) (tidy_suffixed hinner.tidy)
      (h.length_lt hturns) (Nat.le_refl _) h
    refine hmore.bind fun others n q hothers hq => ?_
    split
    · exact absurd rfl (more_ne_nil hk (Nat.le_refl _) hothers)
    · exact follows_pure _ n q hq
  · rw [if_neg hk, bind_of_ok (more_other hk _)]
    exact follows_pure _ m p h

end Readers

/-- The reader of unions, given that of the unions on the next level. -/
theorem arrives_union (hturns : eofIndex source < turns) {levels nested : Nat} (hlevels : d + levels = maxNesting)
    (hinner : ∀ n, levels = n + 1 →
      Inner source (d + 1) (union source (tokens source) turns nested) (Parser.union n))
    (hstarts : ∀ start, around = some start → start < k) (h : Ready source log k around d m p) :
    ∃ c : Call, c.IsOf .union m ∧ Arrives source (c :: log) k around d
      (union source (tokens source) turns (nested + 1) m) (Parser.union levels p) := by
  rw [union]
  refine arrives_call h (fun _ start hstart => Nat.lt_of_lt_of_le (hstarts start hstart) h.le_pos)
    (fun _ => h.takes (sound_union levels)) ?_
  have haround : (m.opened .union).around = some m.place.pos := rfl
  have hopened := h.here.opened .union
  rw [haround] at hopened ⊢
  cases levels with
  | zero =>
    obtain ⟨-, hdeep⟩ := hopened.enter_deep (by omega)
    obtain ⟨n, hn, hready⟩ := hdeep.of_error rfl
    rw [walk_of_error hn]
    exact ⟨n, rfl, hready.mono h.le_pos⟩
  | succ levels =>
    obtain ⟨n, hn, henter, hready⟩ := hopened.enter (by omega)
    rw [walk_of_ok hn, Parser.union, onLevel_eq, bind_of_ok henter, h.depth_eq]
    obtain ⟨n', hn', hready'⟩ := follows_branches hturns (hinner levels rfl) (Nat.le_refl _) n _ hready
    rw [hn']
    exact hready'.arrives.mono h.le_pos

/-- **The reader of unions by index does what the parser does**, from every level on. -/
theorem inner_union (hturns : eofIndex source < turns) {levels nested : Nat} (hlevels : d + levels = maxNesting)
    (hnested : levels < nested) : Inner source d (union source (tokens source) turns nested) (Parser.union levels) := by
  induction nested generalizing d levels with
  | zero => omega
  | succ nested ih =>
    refine ⟨sound_union levels, tidy_union levels, fun {_ _ start} hstart m p h => ?_⟩
    have hstarts (start' : Nat) (hs : some start = some start') : start' < _ := Option.some.inj hs ▸ hstart
    obtain ⟨c, -, hunion⟩ := arrives_union hturns hlevels (fun n hn => ih (by omega) (by omega)) hstarts h
    exact hunion.forget

/-! ## Whole texts -/

/-- The turns are enough for the text. -/
def Suffices (source : String) (turns : Nat) : Prop := eofIndex source < turns ∧ maxNesting < turns

theorem exists_suffices (source : String) : ∃ turns, Suffices source turns :=
  ⟨eofIndex source + maxNesting + 1, by omega, by omega⟩

theorem arrives_typeExpr (hturns : Suffices source turns) (h : Ready source log k none 0 m p) :
    ∃ c : Call, c.IsOf .union m ∧
      Arrives source (c :: log) k none 0 (typeExpr source (tokens source) turns m) (Parser.typeExpr p) := by
  obtain ⟨hloops, hnested⟩ := hturns
  obtain ⟨nested, rfl⟩ := Nat.exists_eq_succ_of_ne_zero (by omega : turns ≠ 0)
  obtain ⟨c, hc, hunion⟩ := arrives_union hloops (Nat.zero_add maxNesting)
    (fun n hn => inner_union hloops (by omega) (show n < nested by omega)) (by simp) h
  refine ⟨c, hc, hunion.bind fun e n q _ hq => (follows_eat .question).bind ?_ n q hq⟩
  intro b m p h
  rw [walk_of_ok (current_eq h), bind_of_ok (peek_eq p)]
  cases hk : p.current.kind with
  | eof =>
    rw [if_pos rfl]
    exact follows_pure _ m p h
  | _ =>
    rw [if_neg (by simp)]
    exact follows_fail _ m p h

theorem current_of_run {e : TypeExpr} (h : p.run = (.ok e, q)) : q.current.kind = .eof := by
  cases htype : Parser.typeExpr p with
  | error failure r =>
    rw [Parser.run, htype] at h
    cases h
  | ok e r =>
    rw [Parser.run, htype] at h
    cases h
    obtain ⟨_, _, -, htype⟩ := bind_eq_ok htype
    obtain ⟨_, _, -, htype⟩ := bind_eq_ok htype
    obtain ⟨kind, r, hpeek, htype⟩ := bind_eq_ok htype
    obtain ⟨hkind, rfl⟩ := peek_eq_ok hpeek
    split at htype
    · obtain ⟨-, rfl⟩ := pure_eq_ok htype
      exact hkind
    · cases htype

/-- Nothing starts at the end of input. -/
theorem branches_end (inner : Step TypeExpr) (hr : p.rest = []) :
    Parser.branches inner p = .error ⟨.unexpectedEnd, p.stop⟩ p := by
  have hcurrent : p.current = .eof p.stop := by
    rw [Parser.current, hr]
    rfl
  have heat : Parser.eat .pipe p = .ok false p := eat_other (by rw [hcurrent]; simp [Token.eof])
  have hprimary : Parser.primary inner p = .error ⟨.unexpectedEnd, p.stop⟩ p := by
    rw [Parser.primary, bind_of_ok (peek_eq p), hcurrent]
    show Parser.fail .unexpectedEnd p = _
    rw [Parser.fail, hcurrent]
    rfl
  have hsuffixed : Parser.suffixed inner p = .error ⟨.unexpectedEnd, p.stop⟩ p := bind_of_error hprimary _
  rw [Parser.branches, bind_of_ok heat, bind_of_error hsuffixed]

/-- At the end of input there is no type expression, and the parser stays where it is. -/
theorem typeExpr_end (hr : p.rest = []) (hd : p.depth = 0) :
    Parser.typeExpr p = .error ⟨.unexpectedEnd, p.stop⟩ p := by
  have henter : Parser.enter p = .ok () { p with depth := p.depth + 1 } := if_neg (by rw [hd]; decide)
  have hbranches (inner : Step TypeExpr) := @branches_end { p with depth := p.depth + 1 } inner hr
  have hunion : Parser.union maxNesting p = .error ⟨.unexpectedEnd, p.stop⟩ p := by
    rw [maxNesting, Parser.union, onLevel_eq, bind_of_ok henter, hbranches]
    rfl
  exact bind_of_error hunion _

/-- The place of a parser of the text. -/
def placeOf (source : String) (p : Parser) : Place := ⟨eofIndex source - p.rest.length, p.depth, p.tooDeep⟩

theorem Ready.place_eq (h : Ready source log k around d m p) : m.place = placeOf source p := by
  have hpos := h.pos_eq
  have hdepth := h.place_depth.trans h.depth_eq.symm
  have hdeep := h.tooDeep_eq
  cases hplace : m.place
  rw [hplace] at hpos hdepth hdeep
  rw [placeOf, ← hpos, ← hdepth, ← hdeep]

theorem ready_ofText (source : String) :
    Ready source [] 0 none 0 { place := ⟨0, 0, false⟩ } (ofText source) where
  source_eq := rfl
  stop_eq := rfl
  covers := ⟨List.prefix_append _ _, Nat.zero_add _⟩
  le_pos := Nat.le_refl _
  around_eq := rfl
  depth_eq := rfl
  place_depth := rfl
  depth_le := Nat.zero_le _
  tooDeep_eq := rfl
  noted := List.nil_sublist _
  kept := ⟨by rintro _ (_ | ⟨_, ⟨⟩⟩); exact ⟨Nat.zero_le _, Nat.zero_le _⟩, by rintro _ ⟨⟩⟩

theorem Ready.run (hturns : Suffices source turns) (h : Ready source log 0 none 0 m p) :
    ∃ c r n, Call.IsOf .union m c ∧ typeExpr source (tokens source) turns m = some (r, n) ∧
      r.mapError (errorOf source) = p.run.1 ∧ Ready source (c :: log) 0 none 0 n p.run.2 := by
  obtain ⟨c, hc, htype⟩ := arrives_typeExpr hturns h
  unfold Parser.run
  cases hy : Parser.typeExpr p with
  | ok e q =>
    obtain ⟨n, hn, hready⟩ := htype.of_ok hy
    exact ⟨c, .ok e, n, hc, hn, rfl, hready⟩
  | error e q =>
    obtain ⟨n, hn, hready⟩ := htype.of_error hy
    exact ⟨c, .error e, n, hc, hn, by rw [h.source_eq]; rfl, hready⟩

/-- Whether the call is one of the reader of unions, in no other union. -/
def Call.isOutermost (c : Call) : Bool := c.reader = .union ∧ c.around = none

/-- Asked again and again, the machine does what the parser does, and notes the outermost call each time. -/
theorem Ready.runs (hturns : Suffices source turns) (h : Ready source log 0 none 0 m p) (n : Nat) :
    ∃ last, Indexed.runs source (tokens source) turns n m =
        some ((Parser.runs n p).map fun x => (x.1, placeOf source x.2), last) ∧ last.Kept (eofIndex source) ∧
      n + log.countP Call.isOutermost ≤ last.calls.countP Call.isOutermost := by
  induction n generalizing log m p with
  | zero => exact ⟨m, rfl, h.kept, by rw [Nat.zero_add]; exact h.noted.countP_le⟩
  | succ n ih =>
    obtain ⟨c, r, m', hc, htype, hr, hready⟩ := h.run hturns
    obtain ⟨last, hlast, hkept, hcount⟩ := ih hready
    have houter : Call.isOutermost c = true := by
      simp [Call.isOutermost, hc.reader_eq, hc.around_eq, h.around_eq]
    refine ⟨last, ?_, hkept, ?_⟩
    · show (typeExpr source (tokens source) turns m).bind _ = _
      rw [htype]
      show (Indexed.runs source (tokens source) turns n m').bind _ = _
      rw [hlast, Parser.runs, List.map_cons, ← hr, ← hready.place_eq]
      rfl
    · rw [List.countP_cons_of_pos houter] at hcount
      omega

theorem runs_end (hr : p.rest = []) (hd : p.depth = 0) (n : Nat) :
    Parser.runs n p = List.replicate n (.error (errorOf p.source ⟨.unexpectedEnd, p.stop⟩), p) := by
  have hrun : p.run = (.error (errorOf p.source ⟨.unexpectedEnd, p.stop⟩), p) := by
    rw [Parser.run, typeExpr_end hr hd]
  induction n with
  | zero => rfl
  | succ n ih => rw [Parser.runs, hrun, ih, List.replicate_succ]

/-- Behind a type expression there is nothing but the end of input. -/
theorem Ready.runs_of_ok (h : Ready source log 0 none 0 m p) {n i j : Nat} (hij : i < j) (hj : j < n) {e : TypeExpr}
    {q : Parser} (hi : (Parser.runs n p)[i]? = some (.ok e, q)) :
    (Parser.runs n p)[j]? = some (.error (errorOf source ⟨.unexpectedEnd, (ofText source).stop⟩), q) := by
  induction n generalizing log m p i j with
  | zero => omega
  | succ n ih =>
    obtain ⟨turns, hturns⟩ := exists_suffices source
    obtain ⟨c, r, m', -, -, -, hready⟩ := h.run hturns
    obtain ⟨j, rfl⟩ := Nat.exists_eq_succ_of_ne_zero (by omega : j ≠ 0)
    rw [Parser.runs] at hi ⊢
    rw [List.getElem?_cons_succ]
    cases i with
    | zero =>
      have hrun : p.run = (.ok e, q) := Option.some.inj hi
      rw [hrun] at hready ⊢
      have hnil := rest_eq_nil_of_eof (current_of_run hrun) hready.kind_ne_eof
      rw [runs_end hnil hready.depth_eq, List.getElem?_replicate, if_pos (by omega), hready.source_eq, hready.stop_eq]
    | succ i => exact ih hready (by omega) (by omega) hi

end Indexed

open Indexed

/-- **A parser by index keeps to its bounds, however often it is asked.**  For every text and number of runs, and all
numbers of turns from some on, each run comes to its end and gives what the parser gives, where it gives it.  At all
times the machine is within the tokens and the nesting limit; every call of a reader, ending well or not, comes back to
its level, those of unions and of their parts take up a token if they end well, and those of unions start further behind
than the union around them (`Machine.Kept`).  The outermost call of every run is among them.  Once a run has succeeded,
all later ones fail at the end of input and leave the machine where it is. -/
theorem runs_keep_bounds (source : String) (n : Nat) :
    ∃ bound, ∀ turns ≥ bound, ∃ rs last,
      Indexed.runs source (tokens source) turns n { place := ⟨0, 0, false⟩ } = some (rs, last) ∧
      rs = (runs n (ofText source)).map (fun x => (x.1, placeOf source x.2)) ∧
      last.Kept (eofIndex source) ∧ n ≤ last.calls.countP Call.isOutermost ∧
      ∀ i j e place, i < j → j < n → rs[i]? = some (.ok e, place) →
        rs[j]? = some (.error (errorOf source ⟨.unexpectedEnd, (ofText source).stop⟩), place) := by
  refine ⟨eofIndex source + maxNesting + 1, fun turns hturns => ?_⟩
  have hstart := ready_ofText source
  have hsuffices : Suffices source turns := ⟨by omega, by omega⟩
  obtain ⟨last, hruns, hkept, hcount⟩ := hstart.runs hsuffices n
  refine ⟨_, last, hruns, rfl, hkept, hcount, fun i j e place hij hj hi => ?_⟩
  rw [List.getElem?_map] at hi ⊢
  obtain ⟨⟨r, q⟩, hq, hpair⟩ := Option.map_eq_some_iff.1 hi
  obtain ⟨rfl, rfl⟩ := Prod.mk.inj hpair
  rw [hstart.runs_of_ok hij hj hq]
  rfl

example : (Indexed.runs "(A)" (tokens "(A)") 9 2 { place := ⟨0, 0, false⟩ }).map (fun x => x.2.calls.reverse.map
    fun c => (c.reader, c.entry.pos, c.exit.pos, c.around)) = some [(.named, 2, 2, some 1), (.primary, 1, 2, some 1),
      (.suffixed, 1, 2, some 1), (.union, 1, 2, some 0), (.primary, 0, 3, some 0), (.suffixed, 0, 3, some 0),
      (.union, 0, 3, none), (.primary, 3, 3, some 3), (.suffixed, 3, 3, some 3), (.union, 3, 3, none)] := by
  cbv

end Parser

end TypeSchema
