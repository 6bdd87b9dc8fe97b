import ElispBridge.Binary64.Basic
/-!
JSON values. A number is held as an integer that is not negative, as one that is, or as a float, and is
asked for as what the asker can take. An object lists its members as they are written.
-/

namespace ElispBridge

namespace Json

inductive Number where
  | positive (n : UInt64)
  | negative (n : Int64)
  | float (x : Binary64)
deriving DecidableEq, Inhabited

namespace Number

def asI64? : Number → Option Int64
  | positive n => if n.toNat < twoTo 63 then some n.toInt64 else none
  | negative n => some n
  | float _ => none

def asU64? : Number → Option UInt64
  | positive n => some n
  | negative _ | float _ => none

/-- Integers are rounded, so there is a float for every number. -/
def asF64? : Number → Option Binary64
  | positive n => some (Binary64.ofRatio false n.toNat 1)
  | negative n => some (Binary64.ofRatio (n.toInt < 0) n.toInt.natAbs 1)
  | float x => some x

end Number

end Json

inductive Json where
  | null
  | bool (b : Bool)
  | number (n : Json.Number)
  | string (s : String)
  | array (items : List Json)
  | object (members : List (String × Json))
deriving Inhabited

/-- Induction over a JSON value, through the lists in it. -/
@[induction_eliminator]
theorem Json.ind {motive : Json → Prop} (null : motive .null) (bool : ∀ b, motive (.bool b))
    (number : ∀ n, motive (.number n)) (string : ∀ s, motive (.string s))
    (array : ∀ items, (∀ j ∈ items, motive j) → motive (.array items))
    (object : ∀ members, (∀ member ∈ members, motive member.2) → motive (.object members)) :
    ∀ j, motive j :=
  @Json.rec motive (fun items => ∀ j ∈ items, motive j) (fun members => ∀ member ∈ members, motive member.2)
    (fun member => motive member.2) null bool number string array object nofun
    (fun _ _ first others => List.forall_mem_cons.mpr ⟨first, others⟩) nofun
    (fun _ _ first others => List.forall_mem_cons.mpr ⟨first, others⟩) (fun _ _ value => value)

end ElispBridge
