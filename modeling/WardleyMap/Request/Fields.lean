import WardleyMap.Json.Read

/-!
# Records in JSON

A record is written as an object, or as an array of its fields in their order. Members of an object that
the record does not know are passed over; a field given twice, and an item that no field corresponds to,
make the text malformed.
-/

namespace WardleyMap.Json

/-- The value of the member with the key `name`: refused if there are two. -/
def member? (members : List (Option Text × Json)) (name : Text) : Option (Option Json) :=
  match members.filter (·.1 = some name) with
  | [] => some none
  | [(_, value)] => some (some value)
  | _ => none

def fields? (names : List Text) : Json → Option (List (Option Json))
  | object members =>
    if members.all (·.1.isSome) then names.mapM (member? members) else none
  | array items =>
    if items.length ≤ names.length then some (items.map some ++ List.replicate (names.length - items.length) none)
    else none
  | _ => none

def required? {α : Type} (decode : Json → Option α) (field : Option Json) : Option α :=
  field.bind decode

def optional? {α : Type} (decode : Json → Option α) (default : α) : Option Json → Option α
  | some value => decode value
  | none => some default

end WardleyMap.Json
