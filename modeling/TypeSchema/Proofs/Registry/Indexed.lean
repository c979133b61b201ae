import TypeSchema.Registry.Extract

/-!
# Reading by index

The readers of declarations, over the indices of one list of tokens that ends with the end of input.  A token that is
not there, a number below zero, a cut that ends before it starts and a loop whose next turn is not further behind all
give `none`, and so does whatever runs into one of them: a reader that gives `some` result has read within the tokens
and has come to its end.
-/

namespace TypeSchema

namespace Extract

namespace Indexed

/-- The difference of two numbers, if it is one. -/
def minus? (a b : Nat) : Option Nat := if b ≤ a then some (a - b) else none

/-- The items from one index to another. -/
def slice? {α : Type} (as : List α) (start stop : Nat) : Option (List α) :=
  if start ≤ stop ∧ stop ≤ as.length then some ((as.drop start).take (stop - start)) else none

section

variable (ts : List Token)

/-! ## Cutting tokens -/

/-- The identifier at an index, if the token there is one. -/
def identAt (k : Nat) : Option (Option String) := ts[k]?.map fun t => t.kind.ident?

/-- The index of the end of input. -/
def eofAt : Option Nat := minus? ts.length 1

/-- The index of the `close` that leaves no group open, from `k` on with `depth` groups open. -/
def matchingFrom (opening close : Punct) (depth k : Nat) : List Token → Option (Option Nat)
  | [] => some none
  | t :: us =>
    if t.isPunct opening then matchingFrom opening close (depth + 1) (k + 1) us
    else if t.isPunct close then do
      let depth ← minus? depth 1
      if depth = 0 then some (some k) else matchingFrom opening close depth (k + 1) us
    else matchingFrom opening close depth (k + 1) us

/-- The index of the bracket that closes the brace or angle at an index. -/
def findMatching (k : Nat) : Option (Option Nat) := do
  let t ← ts[k]?
  if t.isPunct .openBrace then matchingFrom .openBrace .closeBrace 0 k (ts.drop k)
  else if t.isPunct .openAngle then matchingFrom .openAngle .closeAngle 0 k (ts.drop k)
  else some none

/-- Whether an expression ends before the token at an index. -/
def endsExpressionAt (k : Nat) : Option Bool := do
  let t ← ts[k]?
  match t.kind with
  | .punct .semicolon | .punct .comma | .eof | .docComment _ => some true
  | .punct .pipe | .punct .amp | .punct .arrow | .punct .dot => some false
  | kind =>
    if kind.isClose then some true
    else do
      let before ← minus? k 1
      let previous ← ts[before]?
      some (previous.span.line < t.span.line && !previous.kind.continues)

/-- Where the expression behind `start` ends, from `k` on with `depth` brackets open. -/
def expressionEndFrom (start limit depth k : Nat) : Option Nat :=
  if k < limit then do
    let t ← ts[k]?
    let ends ← if start < k ∧ depth = 0 then endsExpressionAt ts k else some false
    if ends then some k else expressionEndFrom start limit (t.kind.nesting depth) (k + 1)
  else some (max limit (start + 1))
termination_by limit - k

/-- Where the expression behind the token at `start` ends. -/
def expressionEnd (start limit : Nat) : Option Nat := expressionEndFrom ts start limit 0 start

/-- Where an enum member ends, from `k` on with `depth` brackets open. -/
def enumMemberEnd (limit depth k : Nat) : Option Nat :=
  if k < limit then do
    let t ← ts[k]?
    if endsEnumMember t ∧ depth = 0 then some k else enumMemberEnd limit (t.kind.nesting depth) (k + 1)
  else some limit
termination_by limit - k

/-- The text of the tokens between two indices without documentation comments, if there is any. -/
def textBetween (start stop : Nat) : Option (Option String) := (slice? ts start stop).map typeText?

/-! ## Members of interfaces -/

/-- The index of the name of the member at an index. -/
def memberStartAt (limit k : Nat) : Option Nat := do
  let t ← ts[k]?
  if t.isIdent "readonly" ∧ k + 1 < limit then do
    let u ← ts[k + 1]?
    some (if (memberName? u).isSome then k + 1 else k)
  else some k

/-- The token at an index before a limit. -/
def tokenBefore (limit k : Nat) : Option (Option Token) := if k < limit then ts[k]?.map some else some none

/-- Reads the member at an index. -/
def memberFrom (owner : String) (description : Option String) (limit k : Nat) :
    Option (Except Diagnostic Field × Nat) := do
  let j ← memberStartAt ts limit k
  let start ← ts[j]?
  let name := (memberName? start).getD ""
  let next ← tokenBefore ts limit (j + 1)
  let optional := next.any fun t => t.isPunct .question
  let colonIndex := if optional then j + 2 else j + 1
  let colon ← tokenBefore ts limit colonIndex
  if colon.any fun t => t.isPunct .colon then do
    let stop ← expressionEnd ts colonIndex limit
    match ← textBetween ts (colonIndex + 1) stop with
    | some type => some (.ok { name, type, optional, description, span := start.span }, stop)
    | none => some (.error ⟨start.span, .untypedMember name owner⟩, stop)
  else do
    let stop ← expressionEnd ts k limit
    some (.error ⟨start.span, withoutColon name owner colon.toList⟩, stop)

/-- One turn of reading members: what is read, the description of the next member, and the next index. -/
def memberTurn (owner : String) (description : Option String) (limit k : Nat) :
    Option (Option (Except Diagnostic Field) × Option String × Nat) := do
  let t ← ts[k]?
  match t.kind with
  | .docComment text => some (none, some text, k + 1)
  | .punct .semicolon | .punct .comma => some (none, description, k + 1)
  | .ident _ | .str _ _ => do
    let (member, next) ← memberFrom ts owner description limit k
    some (some member, none, next)
  | .punct .openBracket => do
    let next ← expressionEnd ts k limit
    some (some (.error ⟨t.span, .indexSignature owner⟩), none, next)
  | found => do
    let next ← expressionEnd ts k limit
    some (some (.error ⟨t.span, .strayToken found .interface owner⟩), none, next)

/-- Reads the members from an index up to a limit. -/
def membersFrom (owner : String) (description : Option String) (limit k : Nat) :
    Option (List (Except Diagnostic Field)) :=
  if k < limit then do
    let (member, description, next) ← memberTurn ts owner description limit k
    if k < next then do
      let others ← membersFrom owner description limit next
      some (member.toList ++ others)
    else none
  else some []
termination_by limit - k

/-! ## Members of enums -/

/-- One turn of reading the members of an enum: what is read, and the next index. -/
def enumTurn (owner : String) (limit k : Nat) : Option (Option (Option String × Option Diagnostic) × Nat) := do
  let stop ← enumMemberEnd ts limit 0 k
  let t ← ts[k]?
  if (memberName? t).isSome then do
    let behind ← slice? ts (k + 1) stop
    some (some (enumMember owner t behind), max stop (k + 1))
  else if endsEnumMember t then some (none, max stop (k + 1))
  else some (some (none, some ⟨t.span, .strayToken t.kind .enum owner⟩), max stop (k + 1))

/-- Reads the members of an enum from an index up to a limit. -/
def enumMembersFrom (owner : String) (limit k : Nat) : Option (List (Option String × Option Diagnostic)) :=
  if k < limit then do
    let (step, next) ← enumTurn ts owner limit k
    if k < next then do
      let others ← enumMembersFrom owner limit next
      some (step.toList ++ others)
    else none
  else some []
termination_by limit - k

/-! ## Declarations -/

/-- Where to go on behind the block whose brace is at an index. -/
def blockEnd (k : Nat) : Option Nat := do
  let close ← findMatching ts k
  some (close.getD k + 1)

/-- The index of the next brace before a limit. -/
def findBrace (limit k : Nat) : Option (Option Nat) :=
  if k < limit then do
    let t ← ts[k]?
    if t.isPunct .openBrace then some (some k) else findBrace limit (k + 1)
  else some none
termination_by limit - k

/-- Where to go on behind a generic interface whose angle is at an index. -/
def genericEnd (k : Nat) : Option Nat := do
  match ← findMatching ts k with
  | none => some (k + 1)
  | some close => do
    let limit ← eofAt ts
    match ← findBrace ts limit (close + 1) with
    | none => some (close + 1)
    | some brace => blockEnd ts brace

/-- A block without a name behind the keyword at an index. -/
def unnamedBlockAt (kind : DeclarationKind) (i : Nat) : Option (List Finding × Option Nat) := do
  let t ← ts[i + 1]?
  if t.isPunct .openBrace then do
    let keyword ← ts[i]?
    let next ← blockEnd ts (i + 1)
    some ([warn keyword.span (.unnamed kind)], some next)
  else some ([], none)

/-- Reads the parts of a name that follow behind dots: the name, if there is one, and where it ends. -/
def dottedTailAt (name : String) (k : Nat) : Option (Option String × Nat) :=
  if k < ts.length then do
    let t ← ts[k]?
    if t.isPunct .dot then
      match ← identAt ts (k + 1) with
      | some part => dottedTailAt (name ++ "." ++ part) (k + 2)
      | none => some (none, k)
    else some (some name, k)
  else none
termination_by ts.length - k

/-- Reads a name with dots: the name, if there is one, and where it ends. -/
def dottedNameAt (k : Nat) : Option (Option String × Nat) := do
  match ← identAt ts k with
  | some name => dottedTailAt ts name (k + 1)
  | none => some (none, k)

/-- How an `extends` clause ends, by index. -/
inductive ClauseEndAt where
  | read (next : Nat)
  | malformed (next : Nat)
  | openArguments

/-- An `extends` clause: the bases without arguments, warnings about the others, and its end. -/
structure ClauseAt where
  bases : List String := []
  found : List Finding := []
  finish : ClauseEndAt

/-- Reads an `extends` clause from its first base on. -/
def clauseAt (owner : String) (k : Nat) : Option ClauseAt :=
  if k < ts.length then do
    let (base?, j) ← dottedNameAt ts k
    let t ← ts[j]?
    match base? with
    | none => some { found := [warn t.span (.malformedExtends owner)], finish := .malformed j }
    | some base =>
      if t.isPunct .openAngle then do
        match ← findMatching ts j with
        | none => some { found := [warn t.span (.genericBase base owner)], finish := .openArguments }
        | some close => do
          let u ← ts[close + 1]?
          if u.isPunct .comma then
            if k < close + 2 then do
              let others ← clauseAt owner (close + 2)
              some { others with found := warn t.span (.genericBase base owner) :: others.found }
            else none
          else some { found := [warn t.span (.genericBase base owner)], finish := .read (close + 1) }
      else if t.isPunct .comma then
        if k < j + 1 then do
          let others ← clauseAt owner (j + 1)
          some { others with bases := base :: others.bases }
        else none
      else some { bases := [base], finish := .read j }
  else none
termination_by ts.length - k

/-- The index of the brace that closes a body whose opening brace is due at `k`, or a warning and where to go on. -/
def bodyAt (kind : DeclarationKind) (keyword : Token) (name : String) (k : Nat) :
    Option (Except (List Finding × Nat) Nat) := do
  let t ← ts[k]?
  if t.isPunct .openBrace then do
    match ← findMatching ts k with
    | some close => some (.ok close)
    | none => some (.error ([warn keyword.span (.openBody kind name)], k + 1))
  else some (.error ([warn keyword.span (.noBody kind name)], k))

/-- Reads an interface whose body is due at `k`. -/
def interfaceBodyAt (keyword : Token) (name : String) (bases : List String) (k : Nat) :
    Option (List Finding × Nat) := do
  match ← bodyAt ts .interface keyword name k with
  | .error (found, next) => some (found, next)
  | .ok close => do
    let read ← membersFrom ts name none close (k + 1)
    let warnings := read.filterMap fun
      | .error d => some (Finding.warning d)
      | .ok _ => none
    let fields := read.filterMap Except.toOption
    some (warnings ++ [.interface { name, bases, fields, span := keyword.span }], close + 1)

/-- Reads the interface whose keyword is at an index. -/
def interfaceAt (i : Nat) : Option (List Finding × Option Nat) := do
  let keyword ← ts[i]?
  match ← identAt ts (i + 1) with
  | none => unnamedBlockAt ts .interface i
  | some name => do
    let t ← ts[i + 2]?
    if t.isPunct .openAngle then do
      let next ← genericEnd ts (i + 2)
      some ([warn keyword.span (.genericInterface name)], some next)
    else if t.isIdent "extends" then do
      let clause ← clauseAt ts name (i + 3)
      match clause.finish with
      | .read k => do
        let (found, next) ← interfaceBodyAt ts keyword name clause.bases k
        some (clause.found ++ found, some next)
      | .malformed k => some (clause.found, some k)
      | .openArguments => some (clause.found, none)
    else do
      let (found, next) ← interfaceBodyAt ts keyword name [] (i + 2)
      some (found, some next)

/-- Reads the alias whose keyword is at an index. -/
def aliasAt (i : Nat) : Option (List Finding × Option Nat) := do
  let keyword ← ts[i]?
  match ← identAt ts (i + 1) with
  | none => some ([], none)
  | some name => do
    let t ← ts[i + 2]?
    if t.isPunct .equals then do
      let limit ← eofAt ts
      let stop ← expressionEnd ts (i + 2) limit
      match ← textBetween ts (i + 3) stop with
      | some type => some ([.typeAlias { name, type, span := keyword.span }], some stop)
      | none => some ([warn keyword.span (.emptyAlias name)], some stop)
    else if t.isPunct .openAngle then do
      let limit ← eofAt ts
      let stop ← expressionEnd ts (i + 2) limit
      some ([warn keyword.span (.genericAlias name)], some stop)
    else some ([warn keyword.span (.noEquals name)], some (i + 2))

/-- Reads the enum whose keyword is at an index. -/
def enumAt (i : Nat) : Option (List Finding × Option Nat) := do
  let keyword ← ts[i]?
  match ← identAt ts (i + 1) with
  | none => unnamedBlockAt ts .enum i
  | some name => do
    match ← bodyAt ts .enum keyword name (i + 2) with
    | .error (found, next) => some (found, some next)
    | .ok close => do
      let read ← enumMembersFrom ts name close (i + 3)
      let warnings := read.filterMap fun step => step.2.map Finding.warning
      let values := read.filterMap Prod.fst
      some (warnings ++ [.enum { name, values, span := keyword.span }], some (close + 1))

/-- Reads the declaration of a kind whose keyword is at an index. -/
def readAt (kind : DeclarationKind) (i : Nat) : Option (List Finding × Option Nat) :=
  match kind with
  | .interface => interfaceAt ts i
  | .typeAlias => aliasAt ts i
  | .enum => enumAt ts i

/-- Whether a dot stands before an index. -/
def dotBefore (i : Nat) : Option Bool :=
  if 0 < i then do
    let before ← minus? i 1
    let t ← ts[before]?
    some (t.isPunct .dot)
  else some false

/-- Reads the declaration that starts at an index: what is found, and where to go on behind it. -/
def declarationAt (i : Nat) : Option (List Finding × Option Nat) := do
  let t ← ts[i]?
  match keywordKind? false t with
  | none => some ([], none)
  | some kind => do
    let dot ← dotBefore ts i
    if dot then some ([], none) else readAt ts kind i

/-- What is found from an index on. -/
def findingsFrom (i : Nat) : Option (List Finding) :=
  if i < ts.length then do
    let (found, next) ← declarationAt ts i
    if i < next.getD (i + 1) then do
      let later ← findingsFrom (next.getD (i + 1))
      some (found ++ later)
    else none
  else some []
termination_by ts.length - i

end

end Indexed

end Extract

end TypeSchema
