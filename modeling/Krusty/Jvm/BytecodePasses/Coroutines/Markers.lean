import Krusty.Jvm.Opcodes

/-! The `InlineMarker` calls that delimit suspension points and their parts. -/
namespace Krusty.Jvm.BytecodePasses.Coroutines

def inlineMarkerClass : String := "kotlin/jvm/internal/InlineMarker"

/-- The descriptor of a marker method. -/
def markerDescriptor (name : String) : Option String :=
  if name = "mark" then some "(I)V"
  else if name = "beforeInlineCall" ∨ name = "beforeInlineCallWithReservedLocals" ∨
      name = "afterInlineCall" then some "()V"
  else none

/-- A static call into `InlineMarker` of one of `names`. -/
def isInlineMarker (names : List String) : Node → Bool
  | .insn (.method op owner name desc interface) =>
    op == invokestatic && !interface && owner == inlineMarkerClass && markerDescriptor name == some desc &&
      names.contains name
  | _ => false

end Krusty.Jvm.BytecodePasses.Coroutines
