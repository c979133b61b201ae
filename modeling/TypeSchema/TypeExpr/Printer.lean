import TypeSchema.TypeExpr

/-!
# The canonical text of a type expression

One spelling per tree: single spaces around `|` and behind `,`, arrays as suffixes, and parentheses
only where a union or a question mark would otherwise reach too far.
-/

namespace TypeSchema

/-- A literal is printed as it was written. -/
def StringLiteral.render (l : StringLiteral) : String :=
  String.singleton l.quote ++ l.value ++ String.singleton l.quote

namespace TypeExpr

/-- Whether the expression stands in parentheses before a suffix and between bars. -/
def isLoose : TypeExpr → Bool
  | union _ | optional _ => true
  | _ => false

mutual

/-- The canonical text of an expression. -/
def render : TypeExpr → String
  | primitive p => p.keyword
  | literal l => l.render
  | reference name => name
  | array e => (if e.isLoose then "(" ++ e.render ++ ")" else e.render) ++ "[]"
  | record key e => "Record<" ++ key ++ ", " ++ e.render ++ ">"
  | anyRecord => "Record<...>"
  | generic name es => name ++ "<" ++ ", ".intercalate (renderAll es) ++ ">"
  | union es => " | ".intercalate (renderBranches es)
  | optional e => e.render ++ "?"

/-- The texts of the arguments of a generic. -/
def renderAll : List TypeExpr → List String
  | [] => []
  | e :: es => e.render :: renderAll es

/-- The texts of the branches of a union. -/
def renderBranches : List TypeExpr → List String
  | [] => []
  | e :: es => (if e.isLoose then "(" ++ e.render ++ ")" else e.render) :: renderBranches es

end

/-- The text of an expression where a loose one needs parentheses. -/
def renderTight (e : TypeExpr) : String := if e.isLoose then "(" ++ e.render ++ ")" else e.render

theorem renderAll_eq_map (es : List TypeExpr) : renderAll es = es.map render := by
  induction es with
  | nil => rfl
  | cons e es ih => simp [renderAll, ih]

theorem renderBranches_eq_map (es : List TypeExpr) : renderBranches es = es.map renderTight := by
  induction es with
  | nil => rfl
  | cons e es ih => simp [renderBranches, renderTight, ih]

end TypeExpr

end TypeSchema
