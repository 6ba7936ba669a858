import WardleyMap.Text.Blank

/-!
# Kinds of statements

A line of a map opens with a keyword, and the keyword decides what the line may hold.
-/

namespace WardleyMap

inductive Kind where
  | component
  | note
  | anchor
  | pipeline
  | evolve
  | pioneers
  | settlers
  | townPlanners
  | annotation
deriving DecidableEq, Repr, Inhabited

namespace Kind

def all : List Kind :=
  [component, note, anchor, pipeline, evolve, pioneers, settlers, townPlanners, annotation]

theorem mem_all (kind : Kind) : kind ∈ all := by
  cases kind <;> decide

def name : Kind → String
  | component => "component"
  | note => "note"
  | anchor => "anchor"
  | pipeline => "pipeline"
  | evolve => "evolve"
  | pioneers => "pioneers"
  | settlers => "settlers"
  | townPlanners => "townplanners"
  | annotation => "annotation"

def keyword (kind : Kind) : Text :=
  kind.name.toList

def ofKeyword? (word : Text) : Option Kind :=
  all.find? (·.keyword = word)

def isPlacement : Kind → Bool
  | component | note | anchor | pipeline => true
  | _ => false

def isMovable : Kind → Bool
  | component | note | anchor => true
  | _ => false

def isRegion : Kind → Bool
  | pioneers | settlers | townPlanners => true
  | _ => false

def isLabelled (kind : Kind) : Bool :=
  kind.isPlacement || kind = evolve

theorem ofKeyword?_keyword (kind : Kind) : ofKeyword? kind.keyword = some kind := by
  cases kind <;> decide

end Kind

end WardleyMap
