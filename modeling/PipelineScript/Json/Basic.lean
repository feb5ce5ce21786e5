import PipelineScript.Json.Number

/-!
# JSON values

Objects keep their members in order, repeated names included. A text with an
escaped surrogate that has no partner is broken.
-/

namespace PipelineScript

inductive Json
  | null
  | bool (b : Bool)
  | nat (n : Nat)
  | otherNumber (written : Text)
  | text (t : Text)
  | broken
  | array (items : List Json)
  | object (members : List (Text × Json))
  deriving Repr

namespace Json

def record (members : List (String × Json)) : Json := object (members.map fun m => (m.1.toList, m.2))

def ofString (s : String) : Json := text s.toList

def orNull : Option Json → Json
  | some j => j
  | none => null

def ofText? : Option Text → Json
  | some t => text t
  | none => broken

def named? (m : Option Text × Json) : Option (Text × Json) := m.1.map fun name => (name, m.2)

def ofMembers (members : List (Option Text × Json)) : Json :=
  match members.mapM named? with
  | some members => object members
  | none => broken

mutual

def isWellFormed : Json → Bool
  | broken => false
  | nat n => Number.fits (toString n).toList
  | otherNumber written => Number.fits written
  | array items => areWellFormed items
  | object members => haveWellFormed members
  | _ => true

def areWellFormed : List Json → Bool
  | [] => true
  | j :: js => j.isWellFormed && areWellFormed js

def haveWellFormed : List (Text × Json) → Bool
  | [] => true
  | (_, j) :: ms => j.isWellFormed && haveWellFormed ms

end

mutual

def depth : Json → Nat
  | array items => 1 + depthOfItems items
  | object members => 1 + depthOfMembers members
  | _ => 0

def depthOfItems : List Json → Nat
  | [] => 0
  | j :: js => max j.depth (depthOfItems js)

def depthOfMembers : List (Text × Json) → Nat
  | [] => 0
  | (_, j) :: ms => max j.depth (depthOfMembers ms)

end

end Json

end PipelineScript
