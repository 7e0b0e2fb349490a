import Mathlib.Data.List.Basic

/-! Parsers of byte lists, and what it is for one to read back bytes that something else follows. -/
namespace Parsing

abbrev Parser (α : Type) := StateT (List UInt8) Option α

variable {α β : Type}

def next : Parser UInt8
  | [] => none
  | b :: rest => some (b, rest)

def take (n : ℕ) : Parser (List UInt8) := fun bytes =>
  if n ≤ bytes.length then some (bytes.take n, bytes.drop n) else none

def many (p : Parser α) : ℕ → Parser (List α)
  | 0 => pure []
  | n + 1 => do
    let a ← p
    let rest ← many p n
    return a :: rest

/-- An item that takes up exactly a number of bytes. -/
def sized (n : ℕ) (p : Parser α) : Parser α := do
  match p (← take n) with
  | some (a, []) => return a
  | _ => failure

/-- An item read from the whole of the bytes. -/
def whole (p : Parser α) (bytes : List UInt8) : Option α :=
  match p bytes with
  | some (a, []) => some a
  | _ => none

/-- Bytes, fewer than a limit, are read back as an item whatever follows them. -/
def Reads (limit : ℕ) (p : Parser α) (bytes : List UInt8) (a : α) : Prop :=
  bytes.length < limit → ∀ rest, p (bytes ++ rest) = some (a, rest)

theorem bind_of_some {p : Parser α} {f : α → Parser β} {bytes rest : List UInt8} {a : α} (h : p bytes = some (a, rest)) :
    (p >>= f) bytes = f a rest := by
  change (p bytes).bind _ = _
  rw [h]
  rfl

namespace Reads

variable {limit : ℕ} {p : Parser α} {f : α → Parser β} {bytes bytes' : List UInt8} {a : α} {b : β}

protected theorem pure (a : α) : Reads limit (pure a) [] a := fun _ _ => rfl

protected theorem bind (hp : Reads limit p bytes a) (hf : Reads limit (f a) bytes' b) :
    Reads limit (p >>= f) (bytes ++ bytes') b := by
  intro hlength rest
  rw [List.length_append] at hlength
  have hfirst := hp (by omega) (bytes' ++ rest)
  rw [List.append_assoc, bind_of_some hfirst]
  exact hf (by omega) rest

/-- A last step that reads nothing. -/
theorem map (hp : Reads limit p bytes a) (g : α → β) : Reads limit (g <$> p) bytes (g a) := by
  intro hlength rest
  change (p (bytes ++ rest)).bind _ = _
  rw [hp hlength rest]
  rfl

theorem bind_pure (hp : Reads limit p bytes a) (hf : f a = pure b) : Reads limit (p >>= f) bytes b := by
  intro hlength rest
  rw [bind_of_some (hp hlength rest), hf]
  rfl

theorem next (b : UInt8) : Reads limit Parsing.next [b] b := fun _ _ => rfl

/-- The first byte decides how the others are read. -/
theorem next_bind {f : UInt8 → Parser β} {first : UInt8} (hf : Reads limit (f first) bytes b) :
    Reads limit (Parsing.next >>= f) (first :: bytes) b := (Reads.next first).bind hf

theorem take (bytes : List UInt8) : Reads limit (Parsing.take bytes.length) bytes bytes := by
  intro _ rest
  have hle : bytes.length ≤ (bytes ++ rest).length := by simp
  rw [Parsing.take, if_pos hle, List.take_left, List.drop_left]

theorem sized (hp : Reads limit p bytes a) : Reads limit (Parsing.sized bytes.length p) bytes a := by
  intro hlength rest
  have hwhole := hp hlength []
  rw [List.append_nil] at hwhole
  rw [Parsing.sized, bind_of_some (take bytes hlength rest), hwhole]
  rfl

theorem many {encode : β → List UInt8} {g : β → α} {items : List β}
    (hp : ∀ b ∈ items, Reads limit p (encode b) (g b)) :
    Reads limit (Parsing.many p items.length) (items.flatMap encode) (items.map g) := by
  induction items with
  | nil => exact .pure []
  | cons b items ih =>
    have hrest := ih fun other hother => hp other (List.mem_cons_of_mem b hother)
    have hitems : Reads limit (Parsing.many p items.length >>= fun rest => return g b :: rest) (items.flatMap encode)
        (g b :: items.map g) := hrest.bind_pure rfl
    exact (hp b List.mem_cons_self).bind hitems

end Reads

end Parsing
