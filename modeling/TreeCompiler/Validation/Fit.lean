import TreeCompiler.Pool.Canonical
import TreeCompiler.Tree.Facts

/-!
# Fits of types

How well a value of one type can be used where another is asked for. Everything converts to the
object type; null and values convert to nullable types; tuples fit field by field; a single value is
packed where a tuple of one field is asked for.
-/

namespace TreeCompiler.Validation

/-- A fit that needs a conversion, if there is a fit at all. -/
def converted (fit : Fit) : Fit := if fit.isFit then .convertible else .fail

def packed (fit : Fit) : Fit := if fit.isFit then .pack else .fail

/-- The fit of fields that are matched in order, up to the first that fails. -/
def fieldsFit (fit : ConstId → ConstId → PoolM Fit) : List (ConstId × ConstId) → PoolM Fit
  | [] => pure .exact
  | (actual, required) :: rest => do
    match ← fit actual required with
    | .fail => pure .fail
    | .exact => fieldsFit fit rest
    | .convertible | .pack => converted <$> fieldsFit fit rest

/-- The fit of the canonical type `actualType`, whose id is `actual`, where another canonical type
is asked for. -/
def structuralFit (fit : ConstId → ConstId → PoolM Fit) (actual : ConstId)
    (want actualType : TypeConstant) : PoolM Fit := do
  match want, actualType with
  | .nullable inner, _ =>
    if actual = (← PoolM.nullType) then
      pure .convertible
    else
      match actualType with
      | .nullable base => converted <$> fit base inner
      | _ => converted <$> fit actual inner
  | .tuple wanted, .tuple fields =>
    if wanted.length = fields.length then
      fieldsFit fit (fields.zip wanted)
    else
      match wanted with
      | [single] => packed <$> fit actual single
      | _ => pure .fail
  | .tuple [single], _ => packed <$> fit actual single
  | _, _ => pure .fail

/-- The fit of a type down to a depth of the type asked for. -/
def fitWithin : Nat → ConstId → ConstId → PoolM Fit
  | 0, _, required => throw (.endless required)
  | depth + 1, actual, required => do
    let actual ← PoolM.canonical actual
    let required ← PoolM.canonical required
    if actual = required then
      pure .exact
    else if required = (← PoolM.objectType) then
      pure .convertible
    else
      let want ← PoolM.read (·.get required)
      let actualType ← PoolM.read (·.get actual)
      match want.bind Constant.type?, actualType.bind Constant.type? with
      | some want, some actualType => structuralFit (fitWithin depth) actual want actualType
      | _, _ => pure .fail

/-- How well a value of type `actual` fits where `required` is asked for. -/
def fit (actual required : ConstId) : PoolM Fit := do
  fitWithin ((← get).size + 1) actual required

end TreeCompiler.Validation
