import Mathlib.Algebra.Group.Int.Defs
import Mathlib.Algebra.Group.Nat.Defs
import Mathlib.Data.List.Basic

/-! # JSON values -/

namespace RemyCC.Json

/-- A number that is not an integer is kept by its literal, and the fields of
an object stand in the order they were first inserted. -/
inductive Value where
  | null
  | bool (b : Bool)
  | int (n : Int)
  | float (literal : String)
  | str (s : String)
  | arr (items : List Value)
  | obj (fields : List (String × Value))
  deriving Inhabited, Repr

namespace Value

def asStr : Value → Option String
  | .str s => some s
  | _ => none

def asArray : Value → Option (List Value)
  | .arr items => some items
  | _ => none

def asObject : Value → Option (List (String × Value))
  | .obj fields => some fields
  | _ => none

def asBool : Value → Option Bool
  | .bool b => some b
  | _ => none

/-- `as_i64`: an integer outside the signed range is not one. -/
def asI64 : Value → Option Int
  | .int n => if -2 ^ 63 ≤ n ∧ n < 2 ^ 63 then some n else none
  | _ => none

def asU64 : Value → Option Nat
  | .int n => if 0 ≤ n ∧ n < 2 ^ 64 then some n.toNat else none
  | _ => none

def isStr (v : Value) : Bool := v.asStr.isSome

def isBool (v : Value) : Bool := v.asBool.isSome

def isNull : Value → Bool
  | .null => true
  | _ => false

def field (fields : List (String × Value)) (key : String) : Option Value :=
  (fields.find? (fun f => f.1 == key)).map Prod.snd

def get (v : Value) (key : String) : Option Value := v.asObject.bind (field · key)

mutual
/-- Objects are equal up to the order of their fields. -/
def same : Value → Value → Bool
  | .null, .null => true
  | .bool a, .bool b => a == b
  | .int a, .int b => a == b
  | .float a, .float b => a == b
  | .str a, .str b => a == b
  | .arr items, .arr items' => sameItems items items'
  | .obj fields, .obj fields' => fields.length == fields'.length && sameFields fields fields'
  | _, _ => false

def sameItems : List Value → List Value → Bool
  | [], [] => true
  | v :: items, w :: items' => same v w && sameItems items items'
  | _, _ => false

def sameFields : List (String × Value) → List (String × Value) → Bool
  | [], _ => true
  | f :: fields, fields' => sameField f fields' && sameFields fields fields'

def sameField : String × Value → List (String × Value) → Bool
  | (key, v), fields => match field fields key with
    | some w => same v w
    | none => false
end

/-- A field inserted under a key that is already there takes the old place. -/
def setField (key : String) (v : Value) : List (String × Value) → List (String × Value)
  | [] => [(key, v)]
  | f :: fields => if f.1 = key then (key, v) :: fields else f :: setField key v fields

theorem setField_of_fresh {key : String} {v : Value} {fields : List (String × Value)}
    (h : key ∉ fields.map Prod.fst) : setField key v fields = fields ++ [(key, v)] := by
  induction fields with
  | nil => rfl
  | cons f fields ih =>
    simp only [List.map_cons, List.mem_cons, not_or] at h
    rw [setField, if_neg (Ne.symm h.1), ih h.2, List.cons_append]

end Value

end RemyCC.Json
