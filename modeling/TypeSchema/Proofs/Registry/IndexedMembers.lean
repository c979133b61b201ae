import TypeSchema.Proofs.Registry.Indexed
import TypeSchema.Proofs.Registry.Visits

/-!
# Reading by index within a range

`Covers ts limit k us` says that `us` are the tokens from one index up to another, and `Ends` that the end of input is
the last token.  Over such a range expressions end and members are read as in the list `us`: the readers by index give
`some` result, with the index that is as far before the limit as the list that is left is long
(`expressionEnd_eq`, `membersFrom_eq`, `enumMembersFrom_eq`).
-/

namespace TypeSchema

namespace Extract

namespace Indexed

/-! ## Tokens between indices -/

/-- The tokens from index `k` up to `limit` are `us`. -/
structure Covers (ts : List Token) (limit k : Nat) (us : List Token) : Prop where
  tokens : us <+: ts.drop k
  stops : k + us.length = limit

namespace Covers

variable {ts us vs : List Token} {limit k : Nat} {t : Token}

theorem lt (h : Covers ts limit k (t :: us)) : k < limit := by
  have hstops := h.stops
  rw [List.length_cons] at hstops
  omega

/-- The index, counted back from the limit. -/
theorem place (h : Covers ts limit k us) : k = limit - us.length := by
  have hstops := h.stops
  omega

theorem head (h : Covers ts limit k (t :: us)) : ts[k]? = some t := by
  obtain ⟨rest, hrest⟩ := h.tokens
  have hdrop : (ts.drop k)[0]? = some t := by
    rw [← hrest]
    rfl
  rwa [List.getElem?_drop, Nat.add_zero] at hdrop

theorem skip (h : Covers ts limit k (us ++ vs)) : Covers ts limit (k + us.length) vs := by
  obtain ⟨rest, hrest⟩ := h.tokens
  have hstops := h.stops
  rw [List.length_append] at hstops
  refine ⟨⟨rest, ?_⟩, by omega⟩
  rw [← List.drop_drop, ← hrest, List.append_assoc, List.drop_left]

theorem tail (h : Covers ts limit k (t :: us)) : Covers ts limit (k + 1) us := by
  have hcons : Covers ts limit k ([t] ++ us) := h
  exact hcons.skip

theorem cut (h : Covers ts limit k (us ++ vs)) : Covers ts (k + us.length) k us :=
  ⟨(List.prefix_append us vs).trans h.tokens, rfl⟩

/-- What is left of the tokens stands before the limit. -/
theorem suffix (h : Covers ts limit k us) (hs : vs <:+ us) : Covers ts limit (limit - vs.length) vs := by
  obtain ⟨front, rfl⟩ := hs
  have hskip := h.skip
  have hplace : limit - vs.length = k + front.length := by
    have hstops := hskip.stops
    omega
  rw [hplace]
  exact hskip

/-- What is left of the tokens does not start before them. -/
theorem le_suffix (h : Covers ts limit k us) (hs : vs <:+ us) : k ≤ limit - vs.length := by
  have hstops := h.stops
  have hle := hs.length_le
  omega

/-- What is left behind the first of the tokens starts further behind. -/
theorem lt_suffix (h : Covers ts limit k (t :: us)) (hs : vs <:+ us) : k < limit - vs.length := h.tail.le_suffix hs

theorem slice (h : Covers ts limit k us) (hl : limit ≤ ts.length) : slice? ts k limit = some us := by
  have hstops := h.stops
  rw [slice?, if_pos ⟨by omega, hl⟩, show limit - k = us.length by omega, ← List.prefix_iff_eq_take.1 h.tokens]

end Covers

theorem exists_covers {ts : List Token} {limit k : Nat} (h : k ≤ limit) (hl : limit ≤ ts.length) :
    ∃ us, Covers ts limit k us := by
  refine ⟨(ts.drop k).take (limit - k), List.take_prefix _ _, ?_⟩
  rw [List.length_take, List.length_drop]
  omega

/-- The tokens end with the end of input at index `e`, and only there. -/
structure Ends (ts : List Token) (stop : Span) (e : Nat) : Prop where
  drop : ts.drop e = [.eof stop]
  kind_ne : ∀ t ∈ ts.take e, t.kind ≠ .eof

namespace Ends

variable {ts us : List Token} {stop : Span} {e limit k : Nat}

theorem length_eq (h : Ends ts stop e) : ts.length = e + 1 := by
  have hlength := congrArg List.length h.drop
  rw [List.length_drop, List.length_singleton] at hlength
  omega

theorem eofAt_eq (h : Ends ts stop e) : eofAt ts = some e := by
  rw [eofAt, minus?, h.length_eq, if_pos (by omega)]
  rfl

theorem lt_length (h : Ends ts stop e) (hc : Covers ts e k us) : k < ts.length := by
  have hplace := hc.place
  rw [h.length_eq]
  omega

theorem drop_eq (h : Ends ts stop e) (hc : Covers ts e k us) : ts.drop k = us ++ [.eof stop] := by
  obtain ⟨rest, hrest⟩ := hc.tokens
  have hdrop := h.drop
  rw [← hc.stops, ← List.drop_drop, ← hrest, List.drop_left] at hdrop
  rw [← hrest, hdrop]

/-- The next token, which is the end of input if none is left. -/
theorem next (h : Ends ts stop e) (hc : Covers ts e k us) : ts[k]? = some (us.headD (.eof stop)) := by
  have hdrop : (ts.drop k)[0]? = some (us.headD (.eof stop)) := by
    rw [h.drop_eq hc]
    cases us <;> rfl
  rwa [List.getElem?_drop, Nat.add_zero] at hdrop

theorem kind_ne_of_mem (h : Ends ts stop e) (hc : Covers ts limit k us) (hl : limit ≤ e) : ∀ t ∈ us, t.kind ≠ .eof := by
  intro t ht
  rw [List.prefix_iff_eq_take.1 hc.tokens, List.take_drop] at ht
  have hstops := hc.stops
  have hle : k + us.length ≤ e := by omega
  exact h.kind_ne t ((List.take_subset_take_left ts hle) (List.mem_of_mem_drop ht))

end Ends

/-! ## Cutting tokens -/

section

variable {ts us : List Token} {stop : Span} {e limit k : Nat} {t : Token}

/-- The length of what stands inside a group that starts one token earlier. -/
theorem map_length_cons (k : Nat) (t : Token) (split : Option (List Token × List Token)) :
    (split.map fun (inside, after) => (t :: inside, after)).map (fun split => k + split.1.length) =
      split.map fun split => k + 1 + split.1.length := by
  cases split with
  | none => rfl
  | some split =>
    rw [Option.map_some, Option.map_some, Option.map_some, List.length_cons]
    congr 1
    omega

theorem matchingFrom_eq (opening close : Punct) (depth k : Nat) (us : List Token) :
    matchingFrom opening close (depth + 1) k (us ++ [.eof stop]) =
      some ((splitClosed? opening close depth us).map fun split => k + split.1.length) := by
  fun_induction splitClosed? opening close depth us generalizing k with
  | case1 => rfl
  | case2 depth t us hopen ih => rw [List.cons_append, matchingFrom, if_pos hopen, ih, map_length_cons]
  | case3 t us hopen hclose =>
    rw [List.cons_append, matchingFrom, if_neg hopen, if_pos hclose]
    rfl
  | case4 t us hopen hclose depth ih =>
    rw [List.cons_append, matchingFrom, if_neg hopen, if_pos hclose, map_length_cons]
    exact ih (k + 1)
  | case5 depth t us hopen hclose ih =>
    rw [List.cons_append, matchingFrom, if_neg hopen, if_neg hclose, ih, map_length_cons]

theorem findMatching_brace (hE : Ends ts stop e) (hc : Covers ts e k (t :: us)) (ht : t.isPunct .openBrace = true) :
    findMatching ts k = some ((splitClosed? .openBrace .closeBrace 0 us).map fun split => k + 1 + split.1.length) := by
  rw [findMatching, hc.head, Option.bind_eq_bind, Option.bind_some, if_pos ht, hE.drop_eq hc, List.cons_append,
    matchingFrom, if_pos ht, matchingFrom_eq]

theorem findMatching_angle (hE : Ends ts stop e) (hc : Covers ts e k (t :: us)) (ht : t.isPunct .openAngle = true) :
    findMatching ts k = some ((splitClosed? .openAngle .closeAngle 0 us).map fun split => k + 1 + split.1.length) := by
  have hbrace : ¬t.isPunct .openBrace = true := by
    rw [isPunct_eq_false ht (by decide)]
    exact Bool.false_ne_true
  rw [findMatching, hc.head, Option.bind_eq_bind, Option.bind_some, if_neg hbrace, if_pos ht, hE.drop_eq hc,
    List.cons_append, matchingFrom, if_pos ht, matchingFrom_eq]

/-- What follows a group. -/
theorem covers_behind {opening close : Punct} {depth : Nat} {inside after : List Token}
    (hc : Covers ts limit k (t :: us)) (hs : splitClosed? opening close depth us = some (inside, after)) :
    Covers ts limit (k + 1 + inside.length + 1) after := by
  obtain ⟨closing, rfl⟩ := exists_of_splitClosed? hs
  exact hc.tail.skip.tail

theorem blockEnd_eq (hE : Ends ts stop e) (hc : Covers ts e k (t :: us)) (ht : t.isPunct .openBrace = true) :
    blockEnd ts k = some (e - (afterBlock us).length) := by
  rw [blockEnd, findMatching_brace hE hc ht, Option.bind_eq_bind, Option.bind_some, afterBlock]
  cases hs : splitClosed? .openBrace .closeBrace 0 us with
  | none => exact congrArg some hc.tail.place
  | some split => exact congrArg some (covers_behind hc hs).place

theorem findBrace_eq (hc : Covers ts limit k us) :
    findBrace ts limit k = some (match us.dropWhile fun t => !t.isPunct .openBrace with
      | [] => none
      | _ :: behind => some (limit - (behind.length + 1))) := by
  induction us generalizing k with
  | nil =>
    have hstops := hc.stops
    rw [findBrace, if_neg (by rw [List.length_nil] at hstops; omega)]
    rfl
  | cons t us ih =>
    rw [findBrace, if_pos hc.lt, hc.head, Option.bind_eq_bind, Option.bind_some]
    cases ht : t.isPunct .openBrace with
    | true =>
      rw [if_pos rfl, List.dropWhile_cons_of_neg (by rw [ht]; decide)]
      exact congrArg (fun n => some (some n)) hc.place
    | false => rw [if_neg Bool.false_ne_true, List.dropWhile_cons_of_pos (by rw [ht]; rfl), ih hc.tail]

theorem genericEnd_eq (hE : Ends ts stop e) (hc : Covers ts e k (t :: us)) (ht : t.isPunct .openAngle = true) :
    genericEnd ts k = some (e - (afterGeneric us).length) := by
  rw [genericEnd, findMatching_angle hE hc ht, Option.bind_eq_bind, Option.bind_some, afterGeneric]
  cases hs : splitClosed? .openAngle .closeAngle 0 us with
  | none => exact congrArg some hc.tail.place
  | some split =>
    obtain ⟨inside, after⟩ := split
    have hafter := covers_behind hc hs
    dsimp only [Option.map_some]
    rw [hE.eofAt_eq, Option.bind_eq_bind, Option.bind_some, findBrace_eq hafter, Option.bind_some]
    cases hd : after.dropWhile fun t => !t.isPunct .openBrace with
    | nil => exact congrArg some hafter.place
    | cons brace behind =>
      have hdrop := List.dropWhile_suffix (l := after) fun t => !t.isPunct .openBrace
      rw [hd] at hdrop
      exact blockEnd_eq hE (hafter.suffix hdrop) (isPunct_of_dropWhile hd)

/-! Expressions -/

theorem endsExpressionAt_eq {previous : Token} (hprevious : ts[k]? = some previous) (ht : ts[k + 1]? = some t)
    (hk : t.kind ≠ .eof) : endsExpressionAt ts (k + 1) = some (endsExpression previous t) := by
  have hminus : minus? (k + 1) 1 = some k := rfl
  rw [endsExpressionAt, endsExpression, ht, Option.bind_eq_bind, Option.bind_some]
  cases hkind : t.kind with
  | eof => exact absurd hkind hk
  | punct p => cases p <;> simp [TokenKind.isClose, Punct.isClose, hminus, hprevious]
  | _ => simp [TokenKind.isClose, hminus, hprevious]

theorem expressionEndFrom_eq {start depth : Nat} {previous : Token} (hprevious : ts[k]? = some previous)
    (hs : start ≤ k) (hc : Covers ts limit (k + 1) us) (hk : ∀ t ∈ us, t.kind ≠ .eof) :
    expressionEndFrom ts start limit depth (k + 1) =
      some (limit - (splitExpression previous depth us).2.length) := by
  induction us generalizing k depth previous with
  | nil =>
    have hstops := hc.stops
    rw [List.length_nil] at hstops
    rw [expressionEndFrom, if_neg (by omega), splitExpression, List.length_nil, Nat.sub_zero]
    exact congrArg some (by omega)
  | cons t us ih =>
    have hnext (depth : Nat) : expressionEndFrom ts start limit depth (k + 1 + 1) =
        some (limit - (splitExpression t depth us).2.length) :=
      ih hc.head (by omega) hc.tail fun u hu => hk u (List.mem_cons_of_mem t hu)
    have hplace := hc.place
    rw [expressionEndFrom, if_pos hc.lt, hc.head, Option.bind_eq_bind, Option.bind_some, splitExpression]
    by_cases hd : depth = 0
    · rw [if_pos ⟨by omega, hd⟩, endsExpressionAt_eq hprevious hc.head (hk t List.mem_cons_self),
        Option.bind_eq_bind, Option.bind_some]
      cases he : endsExpression previous t with
      | true => simpa [hd] using hplace
      | false => simpa [hd] using hnext _
    · rw [if_neg fun h => hd h.2, Option.bind_eq_bind, Option.bind_some]
      simpa [hd] using hnext _

/-- **The expression that starts at an index ends where it does in the list.** -/
theorem expressionEnd_eq (hc : Covers ts limit k (t :: us)) (hk : ∀ t ∈ us, t.kind ≠ .eof) :
    expressionEnd ts k limit = some (limit - (expression t us).2.length) := by
  rw [expressionEnd, expressionEndFrom, if_pos hc.lt, hc.head, Option.bind_eq_bind, Option.bind_some,
    if_neg fun h => Nat.lt_irrefl k h.1, Option.bind_eq_bind, Option.bind_some]
  exact expressionEndFrom_eq hc.head (Nat.le_refl k) hc.tail hk

theorem textBetween_eq (hc : Covers ts limit k (t :: us)) (hl : limit ≤ ts.length) :
    textBetween ts (k + 1) (limit - (expression t us).2.length) = some (typeText? (expression t us).1) := by
  have hcut : (expression t us).1 ++ (expression t us).2 = us := splitExpression_append ..
  have htail := hc.tail
  rw [← hcut] at htail
  have hplace : limit - (expression t us).2.length = k + 1 + (expression t us).1.length := by
    have hstops := htail.stops
    rw [List.length_append] at hstops
    omega
  rw [textBetween, hplace, htail.cut.slice (by omega), Option.map_some]

end

/-! ## Members -/

section

variable {ts us : List Token} {stop : Span} {e limit k : Nat} {t : Token} {owner : String}
  {description : Option String}

theorem exists_memberStartAt (hc : Covers ts limit k (t :: us)) :
    ∃ j, memberStartAt ts limit k = some j ∧ Covers ts limit j ((memberStart t us).1 :: (memberStart t us).2) := by
  rw [memberStartAt, hc.head, Option.bind_eq_bind, Option.bind_some]
  cases us with
  | nil =>
    have hstops := hc.stops
    rw [List.length_singleton] at hstops
    exact ⟨k, if_neg fun h => by omega, hc⟩
  | cons u us =>
    have hlt := hc.tail.lt
    rw [memberStart]
    cases hr : t.isIdent "readonly" with
    | false => exact ⟨k, rfl, hc⟩
    | true =>
      rw [if_pos ⟨rfl, hlt⟩, hc.tail.head, Option.bind_some, Bool.true_and]
      cases hu : (memberName? u).isSome with
      | false => exact ⟨k, rfl, hc⟩
      | true => exact ⟨k + 1, rfl, hc.tail⟩

theorem tokenBefore_eq (hc : Covers ts limit k us) : tokenBefore ts limit k = some us.head? := by
  unfold tokenBefore
  cases us with
  | nil =>
    have hstops := hc.stops
    rw [List.length_nil] at hstops
    exact if_neg (by omega)
  | cons t us =>
    rw [if_pos hc.lt, hc.head]
    rfl

theorem covers_takeQuestion (hc : Covers ts limit k us) :
    (us.head?.any fun t => t.isPunct .question) = (takeQuestion us).1 ∧
      Covers ts limit (if (takeQuestion us).1 then k + 1 else k) (takeQuestion us).2 := by
  cases us with
  | nil => exact ⟨rfl, hc⟩
  | cons t us =>
    rw [takeQuestion, List.head?_cons, Option.any_some]
    cases t.isPunct .question with
    | false => exact ⟨rfl, hc⟩
    | true => exact ⟨rfl, hc.tail⟩

theorem memberFrom_eq (hc : Covers ts limit k (t :: us)) (hk : ∀ t ∈ us, t.kind ≠ .eof) (hl : limit ≤ ts.length) :
    memberFrom ts owner description limit k =
      some ((memberAt owner description t us).1, limit - (memberAt owner description t us).2.length) := by
  obtain ⟨j, hj, hstart⟩ := exists_memberStartAt hc
  obtain ⟨hoptional, htyped⟩ := covers_takeQuestion hstart.tail
  have hsuffix := (rest_takeQuestion (memberStart t us).2).trans (rest_memberStart t us)
  simp only [memberFrom, memberAt, hj, hstart.head, tokenBefore_eq hstart.tail, hoptional, Option.bind_eq_bind,
    Option.bind_some]
  -- what follows the name and the question mark, and where it starts
  generalize (takeQuestion (memberStart t us).2).2 = typed at htyped hsuffix ⊢
  generalize (if (takeQuestion (memberStart t us).2).1 = true then j + 2 else j + 1) = c at htyped ⊢
  rw [tokenBefore_eq htyped, Option.bind_some]
  cases typed with
  | nil =>
    rw [List.head?_nil, Option.any_none, if_neg Bool.false_ne_true, expressionEnd_eq hc hk]
    rfl
  | cons colon body =>
    have hbody : ∀ u ∈ body, u.kind ≠ .eof := fun u hu => hk u (hsuffix.subset (List.mem_cons_of_mem colon hu))
    rw [List.head?_cons, Option.any_some]
    dsimp only
    cases colon.isPunct .colon with
    | false =>
      rw [if_neg Bool.false_ne_true, expressionEnd_eq hc hk]
      rfl
    | true =>
      rw [if_pos rfl, expressionEnd_eq htyped hbody, Option.bind_some, textBetween_eq htyped hl, Option.bind_some]
      cases typeText? (expression colon body).1 with
      | none => rfl
      | some type => rfl

/-- **One turn by index is one turn over the list**, and goes on further behind. -/
theorem exists_memberTurn (owner : String) (description : Option String) (hc : Covers ts limit k (t :: us))
    (hk : ∀ t ∈ us, t.kind ≠ .eof) (hl : limit ≤ ts.length) :
    ∃ member description' rest, memberTurn ts owner description limit k =
        some (member, description', limit - rest.length) ∧ rest <:+ us ∧
      members owner description (t :: us) = member.toList ++ members owner description' rest := by
  have hnext := hc.tail.place
  rw [memberTurn, members, hc.head, Option.bind_eq_bind, Option.bind_some]
  cases t.kind with
  | docComment text => exact ⟨none, some text, us, by rw [hnext], List.suffix_refl us, rfl⟩
  | ident | str =>
    dsimp only
    rw [memberFrom_eq hc hk hl]
    exact ⟨_, none, _, rfl, rest_memberAt owner description t us, rfl⟩
  | punct p =>
    cases p with
    | semicolon | comma => exact ⟨none, description, us, by rw [hnext], List.suffix_refl us, rfl⟩
    | _ =>
      dsimp only
      rw [expressionEnd_eq hc hk]
      exact ⟨_, none, _, rfl, rest_expression t us, rfl⟩
  | _ =>
    dsimp only
    rw [expressionEnd_eq hc hk]
    exact ⟨_, none, _, rfl, rest_expression t us, rfl⟩

theorem membersFrom_eq (hE : Ends ts stop e) (hl : limit ≤ e) (hc : Covers ts limit k us) :
    membersFrom ts owner description limit k = some (members owner description us) := by
  -- over the tokens that are left
  induction hn : us.length using Nat.strongRecOn generalizing us k description with
  | ind n ih =>
    subst hn
    rw [membersFrom]
    cases us with
    | nil =>
      have hstops := hc.stops
      rw [List.length_nil] at hstops
      rw [if_neg (by omega), members]
    | cons t us =>
      have hk : ∀ u ∈ us, u.kind ≠ .eof := hE.kind_ne_of_mem hc.tail hl
      have hlength : limit ≤ ts.length := by rw [hE.length_eq]; omega
      obtain ⟨member, description', rest, hturn, hrest, hmembers⟩ := exists_memberTurn owner description hc hk hlength
      have hle := hrest.length_le
      have hothers : membersFrom ts owner description' limit (limit - rest.length) =
          some (members owner description' rest) :=
        ih rest.length (by rw [List.length_cons]; omega) (hc.tail.suffix hrest) rfl
      rw [if_pos hc.lt, hturn, Option.bind_eq_bind, Option.bind_some]
      dsimp only
      rw [if_pos (hc.lt_suffix hrest), hothers, hmembers]
      rfl

/-! Members of enums -/

theorem splitEnumMember_append (depth : Nat) (us : List Token) :
    (splitEnumMember depth us).1 ++ (splitEnumMember depth us).2 = us := by
  fun_induction splitEnumMember depth us <;> simp_all

theorem enumMemberEnd_eq {depth : Nat} (hc : Covers ts limit k us) :
    enumMemberEnd ts limit depth k = some (limit - (splitEnumMember depth us).2.length) := by
  induction us generalizing k depth with
  | nil =>
    have hstops := hc.stops
    rw [List.length_nil] at hstops
    rw [enumMemberEnd, if_neg (by omega), splitEnumMember]
    rfl
  | cons t us ih =>
    have hplace := hc.place
    have hnext (depth : Nat) : enumMemberEnd ts limit depth (k + 1) =
        some (limit - (splitEnumMember depth us).2.length) := ih hc.tail
    rw [enumMemberEnd, if_pos hc.lt, hc.head, Option.bind_eq_bind, Option.bind_some, splitEnumMember]
    by_cases hd : depth = 0
    · cases he : endsEnumMember t with
      | true => simpa [hd] using hplace
      | false => simpa [hd] using hnext _
    · simpa [hd] using hnext _

theorem memberName?_of_endsEnumMember (h : endsEnumMember t = true) : memberName? t = none := by
  unfold endsEnumMember at h
  unfold memberName?
  split at h
  · rename_i hk
    rw [hk]
  · rename_i hk
    rw [hk]
  · cases h

/-- **One turn by index is one turn over the list**, and goes on further behind. -/
theorem exists_enumTurn (owner : String) (hc : Covers ts limit k (t :: us)) (hl : limit ≤ ts.length) :
    ∃ step rest, enumTurn ts owner limit k = some (step, limit - rest.length) ∧ rest <:+ us ∧
      enumMembers owner (t :: us) = step.toList ++ enumMembers owner rest := by
  have hplace := hc.tail.place
  have hend : enumMemberEnd ts limit 0 k = some (limit - (splitEnumMember 0 (t :: us)).2.length) := enumMemberEnd_eq hc
  rw [splitEnumMember] at hend
  rw [enumTurn, enumMembers]
  cases he : endsEnumMember t with
  | true =>
    have hstop : max (limit - (us.length + 1)) (k + 1) = limit - us.length := by omega
    have hend' : enumMemberEnd ts limit 0 k = some (limit - (us.length + 1)) := by rw [hend, he]; rfl
    rw [hend', hc.head, Option.bind_eq_bind, Option.bind_some, Option.bind_eq_bind, Option.bind_some,
      memberName?_of_endsEnumMember he, hstop, he]
    exact ⟨none, us, rfl, List.suffix_refl us, rfl⟩
  | false =>
    have hcut := splitEnumMember_append (t.kind.nesting 0) us
    rw [he] at hend
    generalize splitEnumMember (t.kind.nesting 0) us = split at hcut hend ⊢
    obtain ⟨inside, rest⟩ := split
    have htail : Covers ts limit (k + 1) (inside ++ rest) := hcut ▸ hc.tail
    have hstop : limit - rest.length = k + 1 + inside.length := by
      have hstops := htail.stops
      rw [List.length_append] at hstops
      omega
    have hend' : enumMemberEnd ts limit 0 k = some (limit - rest.length) := hend
    refine ⟨some (enumMember owner t inside), rest, ?_, ⟨inside, hcut⟩, rfl⟩
    rw [hend', hc.head, Option.bind_eq_bind, Option.bind_some, Option.bind_eq_bind, Option.bind_some, hstop,
      htail.cut.slice (by omega), Nat.max_eq_left (by omega), he]
    unfold enumMember
    cases memberName? t with
    | none => rfl
    | some member => rfl

theorem enumMembersFrom_eq (hc : Covers ts limit k us) (hl : limit ≤ ts.length) :
    enumMembersFrom ts owner limit k = some (enumMembers owner us) := by
  -- over the tokens that are left
  induction hn : us.length using Nat.strongRecOn generalizing us k with
  | ind n ih =>
    subst hn
    rw [enumMembersFrom]
    cases us with
    | nil =>
      have hstops := hc.stops
      rw [List.length_nil] at hstops
      rw [if_neg (by omega), enumMembers]
    | cons t us =>
      obtain ⟨step, rest, hturn, hrest, hmembers⟩ := exists_enumTurn owner hc hl
      have hle := hrest.length_le
      have hothers : enumMembersFrom ts owner limit (limit - rest.length) = some (enumMembers owner rest) :=
        ih rest.length (by rw [List.length_cons]; omega) (hc.tail.suffix hrest) rfl
      rw [if_pos hc.lt, hturn, Option.bind_eq_bind, Option.bind_some]
      dsimp only
      rw [if_pos (hc.lt_suffix hrest), hothers, hmembers]
      rfl

end

end Indexed

end Extract

end TypeSchema
