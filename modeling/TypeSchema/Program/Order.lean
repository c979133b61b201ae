import TypeSchema.Error
import TypeSchema.Program

/-!
# Orders of schemas

A name stands for the last schema that has it.  `forwardReferences` warns about references to
schemas that do not come earlier; `topologicalOrder` puts every schema behind those it refers to,
and otherwise keeps the order, or names a circle.
-/

namespace TypeSchema

namespace Order

/-- The last place at which a name stands. -/
def lastIndex? (name : String) : List String → Option Nat
  | [] => none
  | n :: ns =>
    match lastIndex? name ns with
    | some i => some (i + 1)
    | none => if n = name then some 0 else none

/-- The places of the schemas that each schema refers to. -/
def dependencies (schemas : List Schema) : List (List Nat) :=
  let names := schemas.map Schema.name
  schemas.map fun s => s.validator.references.filterMap fun name => lastIndex? name names

/-- The warning about a reference from the schema at place `i` to `name`, if `name` does not stand
for an earlier one. -/
def forwardReference? (names : List String) (i : Nat) (s : Schema) (name : String) :
    Option Diagnostic :=
  match lastIndex? name names with
  | some j =>
    if j = i then some ⟨s.span, .selfReference name⟩
    else if i < j then some ⟨s.span, .forwardReference s.name name⟩
    else none
  | none => none

/-- A warning for every reference to a schema at the same or a later place. -/
def forwardReferences (schemas : List Schema) : List Diagnostic :=
  let names := schemas.map Schema.name
  schemas.zipIdx.flatMap fun (s, i) =>
    s.validator.references.filterMap (forwardReference? names i s)

/-- The first of the pending places that depends on no pending one. -/
def ready? (deps : Nat → List Nat) (pending : List Nat) : Option Nat :=
  pending.find? fun i => (deps i).all fun d => !pending.contains d

/-- How following dependencies from place to place ends. -/
inductive Trail where
  /-- At a place without a pending dependency. -/
  | deadEnd (path : List Nat)
  /-- In a circle, with the same place at both ends. -/
  | circle (places : List Nat)
  deriving DecidableEq, Repr

/-- The places of a trail. -/
def Trail.places : Trail → List Nat
  | deadEnd path => path
  | circle places => places

/-- Follows the first pending dependency of the last place on a path until a place comes again.  Every
round puts a pending place on the path that was not there. -/
def follow (deps : Nat → List Nat) (pending path : List Nat) (current : Nat) : Trail :=
  match _h : (deps current).find? fun d => pending.contains d with
  | none => .deadEnd path
  | some next =>
    if path.contains next then .circle (path.dropWhile (· ≠ next) ++ [next])
    else follow deps pending (path ++ [next]) next
termination_by (pending.filter fun d => !path.contains d).length
decreasing_by
  have hnext : next ∈ pending := by simpa using List.find?_some _h
  have hrest : (pending.filter fun d => !(path ++ [next]).contains d) =
      (pending.filter fun d => !path.contains d).filter (· ≠ next) := by
    rw [List.filter_filter]
    congr 1
    funext d
    by_cases hd : d = next <;> simp [hd]
  rw [hrest, List.length_filter_lt_length_iff_exists]
  exact ⟨next, by simp_all⟩

/-- A circle among the pending places, found from the first of them. -/
def findCycle (deps : Nat → List Nat) (pending : List Nat) : List Nat :=
  match pending with
  | [] => []
  | start :: _ => (follow deps pending [start] start).places

/-- Takes the first ready place again and again; fails with a circle if there is none. -/
def sequence (deps : Nat → List Nat) (pending : List Nat) : Except (List Nat) (List Nat) :=
  if pending.isEmpty then .ok []
  else
    match _h : ready? deps pending with
    | none => .error (findCycle deps pending)
    | some i => (sequence deps (pending.erase i)).map (i :: ·)
termination_by pending.length
decreasing_by
  have hi : i ∈ pending := List.mem_of_find?_eq_some _h
  have := List.length_pos_of_mem hi
  rw [List.length_erase_of_mem hi]
  omega

/-- The schemas, each behind all those it refers to.  Of those that could come next, the earliest
does. -/
def topologicalOrder (schemas : List Schema) : Except Error (List Schema) :=
  let deps := dependencies schemas
  match sequence (fun i => deps.getD i []) (List.range schemas.length) with
  | .ok places => .ok (places.filterMap fun i => schemas[i]?)
  | .error cycle =>
    .error { cause := .cyclic (cycle.filterMap fun i => schemas[i]?.map Schema.name) }

end Order

end TypeSchema
