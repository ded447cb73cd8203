import PrecisionGc.Model.Memory

/-!
# What a type says about a block

`leaves` lists the byte offsets of the pointers in an object of a type, at whatever depth, and
`wellFormed` says that every array has elements of known length. Both are about the type alone: no
function of the collector occurs in them.
-/

namespace PrecisionGc.Uniqtype

/-- The distance of two consecutive elements of this type. -/
def stride (t : Uniqtype) : Nat := (t.posMaxoff.getD 0).toNat

mutual
/-- The offsets of the pointer-typed leaves. -/
def leaves : Uniqtype → List Nat
  | pointer => [0]
  | composite _ related => memberLeaves related
  | array _ length elementType =>
    (List.range length.toNat).flatMap fun i => (leaves elementType).map (i * elementType.stride + ·)
  | _ => []

def memberLeaves : List (Nat × Uniqtype) → List Nat
  | [] => []
  | (memberOffset, t) :: related => (leaves t).map (memberOffset + ·) ++ memberLeaves related
end

mutual
/-- The elements of every array have known length. -/
def wellFormed : Uniqtype → Bool
  | composite _ related => membersWellFormed related
  | array _ _ elementType => elementType.hasKnownLength && wellFormed elementType
  | _ => true

def membersWellFormed : List (Nat × Uniqtype) → Bool
  | [] => true
  | (_, t) :: related => wellFormed t && membersWellFormed related
end

/-- Every pointer of an object of this type lies in its first `length` bytes. -/
def fits (t : Uniqtype) (length : Nat) : Bool := t.leaves.all (· + pointerSize ≤ length)

end PrecisionGc.Uniqtype
