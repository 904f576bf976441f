import RequestShapes.Table
import RequestShapes.Number.Binary64

/-!
# JSON values

JSON values keep the order of their members and the difference between an
integer and a double. A schema is itself such a value: an object whose members
are read by name.
-/

namespace RequestShapes

/-- A JSON value. Members stand in the order in which they were written. -/
inductive Json where
  | null
  | bool (value : Bool)
  | int (value : Int)
  | float (value : Binary64)
  | str (value : String)
  | arr (items : List Json)
  | obj (members : List (String × Json))
deriving Inhabited

namespace Json

/-- The object without members. As a schema it accepts everything. -/
def empty : Json := .obj []

/-- The value of a member; nothing for what is not an object. -/
def get? : Json → String → Option Json
  | .obj members, name => Table.get? members name
  | _, _ => none

/-- Whether an object has a member. -/
def has (value : Json) (name : String) : Bool :=
  (value.get? name).isSome

/-- Write a member of an object; other values stay as they are. -/
def set : Json → String → Json → Json
  | .obj members, name, value => .obj (Table.set members name value)
  | other, _, _ => other

/-- Remove a member of an object; other values stay as they are. -/
def erase : Json → String → Json
  | .obj members, name => .obj (Table.erase members name)
  | other, _ => other

/-- The members of an object; none for every other value. -/
def members : Json → List (String × Json)
  | .obj members => members
  | _ => []

/-- Whether a value is an object. -/
def isObject : Json → Bool
  | .obj _ => true
  | _ => false

/-- Whether a value holds other values. -/
def isContainer : Json → Bool
  | .arr _ | .obj _ => true
  | _ => false

/-- What is listed by a value: the items of an array, the names of an object,
the characters of a text. -/
def listed? : Json → Option (List Json)
  | .arr items => some items
  | .obj members => some (members.map fun (name, _) => .str name)
  | .str text => some (text.toList.map fun c => .str (String.ofList [c]))
  | _ => none

/-- Whether a value counts as nothing where an optional value is expected:
null, false, a zero, an empty text, an empty array or an empty object. -/
def isVacant : Json → Bool
  | .null => true
  | .bool value => !value
  | .int value => value = 0
  | .float value => value.isZero
  | .str value => value.isEmpty
  | .arr items => items.isEmpty
  | .obj members => members.isEmpty

/-- An optional value, a vacant one counting as absent. -/
def filled? (value : Option Json) : Option Json :=
  value.filter fun value => !value.isVacant

mutual

/-- Whether two values are written alike. -/
def same : Json → Json → Bool
  | .null, .null => true
  | .bool a, .bool b => a = b
  | .int a, .int b => a = b
  | .float a, .float b => a = b
  | .str a, .str b => a = b
  | .arr as, .arr bs => sameItems as bs
  | .obj as, .obj bs => sameMembers as bs
  | _, _ => false

/-- Whether two lists of items are written alike. -/
def sameItems : List Json → List Json → Bool
  | [], [] => true
  | a :: as, b :: bs => same a b && sameItems as bs
  | _, _ => false

/-- Whether two lists of members are written alike. -/
def sameMembers : List (String × Json) → List (String × Json) → Bool
  | [], [] => true
  | (k, a) :: as, (l, b) :: bs => k = l && same a b && sameMembers as bs
  | _, _ => false

end

mutual

theorem same_iff : (a b : Json) → (same a b = true ↔ a = b)
  | .null, b => by cases b <;> simp [same]
  | .bool a, b => by cases b <;> simp [same]
  | .int a, b => by cases b <;> simp [same]
  | .float a, b => by cases b <;> simp [same]
  | .str a, b => by cases b <;> simp [same]
  | .arr as, b => by cases b <;> simp [same, sameItems_iff]
  | .obj as, b => by cases b <;> simp [same, sameMembers_iff]

theorem sameItems_iff : (as bs : List Json) → (sameItems as bs = true ↔ as = bs)
  | [], bs => by cases bs <;> simp [sameItems]
  | a :: as, bs => by cases bs <;> simp [sameItems, same_iff, sameItems_iff]

theorem sameMembers_iff :
    (as bs : List (String × Json)) → (sameMembers as bs = true ↔ as = bs)
  | [], bs => by cases bs <;> simp [sameMembers]
  | (k, a) :: as, bs => by
      cases bs <;> simp [sameMembers, same_iff, sameMembers_iff, Prod.ext_iff, and_assoc]

end

instance : DecidableEq Json := fun a b => decidable_of_iff (same a b = true) (same_iff a b)

mutual

/-- How deeply arrays and objects nest in a value. -/
def depth : Json → Nat
  | .arr items => depthItems items + 1
  | .obj members => depthMembers members + 1
  | _ => 0

/-- The greatest depth among items. -/
def depthItems : List Json → Nat
  | [] => 0
  | item :: items => max (depth item) (depthItems items)

/-- The greatest depth among the values of members. -/
def depthMembers : List (String × Json) → Nat
  | [] => 0
  | (_, value) :: members => max (depth value) (depthMembers members)

end

/-- Every value has a positive size. -/
theorem sizeOf_pos (value : Json) : 0 < sizeOf value := by
  cases value <;>
    simp only [null.sizeOf_spec, bool.sizeOf_spec, int.sizeOf_spec, float.sizeOf_spec,
      str.sizeOf_spec, arr.sizeOf_spec, obj.sizeOf_spec] <;>
    omega

/-- A member is smaller than the list it stands in. -/
theorem sizeOf_lt_of_lookup {members : List (String × Json)} {name : String} {value : Json}
    (h : Table.get? members name = some value) : sizeOf value < sizeOf members := by
  induction members with
  | nil => simp at h
  | cons entry rest ih =>
      obtain ⟨key, old⟩ := entry
      by_cases hkey : key = name
      · simp only [Table.get?, hkey, if_true, Option.some.injEq] at h
        subst h
        simp only [List.cons.sizeOf_spec, Prod.mk.sizeOf_spec]
        omega
      · simp only [Table.get?, hkey, if_false] at h
        have := ih h
        simp only [List.cons.sizeOf_spec]
        omega

/-- A member is smaller than its object. -/
theorem sizeOf_get?_lt {node : Json} {name : String} {value : Json}
    (h : node.get? name = some value) : sizeOf value < sizeOf node := by
  cases node with
  | obj members =>
      have := sizeOf_lt_of_lookup (h : Table.get? members name = some value)
      simp only [obj.sizeOf_spec]
      omega
  | _ => simp [get?] at h

/-- What counts as filled is there. -/
theorem get?_of_filled? {node : Json} {name : String} {value : Json}
    (h : filled? (node.get? name) = some value) : node.get? name = some value := by
  simp only [filled?, Option.filter_eq_some_iff] at h
  exact h.1

end Json

end RequestShapes
