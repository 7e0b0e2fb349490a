import Mathlib.Data.List.Basic

/-! JVM descriptors: the validating parser of `names.rs`. -/
namespace Krusty.Jvm

/-- The text up to the first `c`, and the text after it. -/
def splitAtChar (c : Char) (text : List Char) : Option (List Char × List Char) :=
  if c ∈ text then some (text.takeWhile (· != c), (text.dropWhile (· != c)).tail) else none

/-- The first field descriptor of `desc`, and what follows it. -/
def splitFieldDescriptor (desc : List Char) : Option (List Char × List Char) :=
  let brackets := desc.takeWhile (· == '[')
  match desc.dropWhile (· == '[') with
  | [] => none
  | 'L' :: rest => (splitAtChar ';' rest).map fun (name, tail) =>
      (brackets ++ 'L' :: name ++ [';'], tail)
  | c :: rest => some (brackets ++ [c], rest)

def validFieldDescriptor (desc : List Char) : Bool :=
  match desc.dropWhile (· == '[') with
  | [c] => c ∈ ['B', 'C', 'D', 'F', 'I', 'J', 'S', 'Z']
  | 'L' :: rest =>
      rest.getLast? == some ';' && 1 < rest.length && rest.dropLast.all fun c => c != ';' && c != '['
  | _ => false

def methodDescriptorParts (desc : String) : Option (List Char × List Char) :=
  match desc.toList with
  | '(' :: body => do
    let (parameters, ret) ← splitAtChar ')' body
    if ret == ['V'] || validFieldDescriptor ret then some (parameters, ret) else none
  | _ => none

/-- The parameters of a parameter list; each takes at least one character. -/
def splitParameters : ℕ → List Char → Option (List (List Char))
  | _, [] => some []
  | 0, _ => none
  | fuel + 1, rest => do
    let (param, tail) ← splitFieldDescriptor rest
    if validFieldDescriptor param then (param :: ·) <$> splitParameters fuel tail else none

/-- The parameter descriptors and the return descriptor of a method descriptor. -/
def parseMethodDescriptor (desc : String) : Option (List (List Char) × List Char) := do
  let (parameters, ret) ← methodDescriptorParts desc
  let params ← splitParameters parameters.length parameters
  some (params, ret)

example : parseMethodDescriptor "(I[JLa/B;)V" = some ([['I'], ['[', 'J'], "La/B;".toList], ['V']) := by
  decide

end Krusty.Jvm

/-! Field and method descriptors as the bytecode passes split them. -/
namespace Krusty.Jvm.BytecodePasses

/-- How much of `desc` its first field type takes. -/
def fieldTypeLength (desc : List Char) : Option ℕ :=
  let index := (desc.takeWhile (· == '[')).length
  match desc.drop index with
  | 'L' :: rest => if ';' ∈ rest then some ((rest.takeWhile (· != ';')).length + 1 + index + 1) else none
  | c :: _ => if c ∈ ['B', 'C', 'D', 'F', 'I', 'J', 'S', 'Z'] then some (index + 1) else none
  | [] => none

/-- The field types of a parameter list, each at least one character long. -/
def splitArguments : ℕ → List Char → Option (List String)
  | _, [] => some []
  | 0, _ => none
  | fuel + 1, rest => do
    let length ← fieldTypeLength rest
    let arguments ← splitArguments fuel (rest.drop length)
    return String.ofList (rest.take length) :: arguments

def argumentTypes (desc : String) : Option (List String) :=
  match desc.toList with
  | '(' :: inner =>
    if ')' ∈ inner then
      let parameters := inner.takeWhile (· != ')')
      splitArguments parameters.length parameters
    else none
  | _ => none

/-- The return descriptor of a method descriptor (`V` for `void`). -/
def returnType (desc : String) : Option String :=
  if ')' ∈ desc.toList then
    let ret := (desc.toList.dropWhile (· != ')')).tail
    if ret = [] then none else some (String.ofList ret)
  else none

/-- Words a value of this field descriptor occupies (`0` for `V`). -/
def descriptorSize (desc : String) : ℕ :=
  match desc.toList with
  | 'J' :: _ | 'D' :: _ => 2
  | 'V' :: _ | [] => 0
  | _ => 1

/-- The descriptor of an internal name; an array class already is one. -/
def ofInternalName (internal : String) : String :=
  if internal.toList.head? = some '[' then internal else "L" ++ internal ++ ";"

example : argumentTypes "(I[La/B;J)V" = some ["I", "[La/B;", "J"] := by decide

end Krusty.Jvm.BytecodePasses
