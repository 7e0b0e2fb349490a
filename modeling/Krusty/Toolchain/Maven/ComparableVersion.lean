import Mathlib.Data.String.Basic
import Mathlib.Order.Compare

/-! Maven's version order: how a version is parsed into items, and how items compare. -/
namespace Krusty.Toolchain.Maven

/-- The qualifiers in release order; anything else sorts after them, alphabetically. -/
def qualifiers : List String := ["alpha", "beta", "milestone", "rc", "snapshot", "", "sp"]

def release : String := "5"

inductive Item where
  /-- Digits without leading zeros. -/
  | int (digits : String)
  | string (value : String)
  | list (items : List Item)

def qualifier (value : String) : String :=
  match qualifiers.idxOf? value with
  | some index => toString index
  | none => toString qualifiers.length ++ "-" ++ value

def stringItem (value : String) (followedByDigit : Bool) : Item :=
  .string <|
    if value = "a" ∧ followedByDigit then "alpha"
    else if value = "b" ∧ followedByDigit then "beta"
    else if value = "m" ∧ followedByDigit then "milestone"
    else if value = "ga" ∨ value = "final" ∨ value = "release" then ""
    else if value = "cr" then "rc"
    else value

def parseItem (digits : Bool) (text : List Char) : Item :=
  if digits then
    let trimmed := text.dropWhile (· = '0')
    .int (if trimmed = [] then "0" else String.ofList trimmed)
  else stringItem (String.ofList text) false

def isNull : Item → Bool
  | .int digits => digits = "0"
  | .string value => value = ""
  | .list items => items.isEmpty

/-- The loop of `normalize`, on the items from the last one back. -/
def dropNulls : List Item → List Item
  | [] => []
  | item :: rest =>
    if isNull item then dropNulls rest
    else match item with
      | .list _ => item :: dropNulls rest
      | _ => item :: rest

/-- Drop null items from the end, looking past lists. -/
def normalize (items : List Item) : List Item := (dropNulls items.reverse).reverse

def compareInts (a b : String) : Ordering := (cmp a.utf8ByteSize b.utf8ByteSize).then (cmp a b)

mutual

/-- An item against a missing one. -/
def compareToNone : Item → Ordering
  | .int digits => if digits = "0" then .eq else .gt
  | .string value => cmp (qualifier value) release
  | .list items => compareAllToNone items

/-- The first of a list's items that does not equal a missing one decides. -/
def compareAllToNone : List Item → Ordering
  | [] => .eq
  | item :: items => (compareToNone item).then (compareAllToNone items)

end

mutual

def compare : Item → Item → Ordering
  | .int a, .int b => compareInts a b
  | .int _, _ => .gt
  | .string _, .int _ => .lt
  | .string a, .string b => cmp (qualifier a) (qualifier b)
  | .string _, .list _ => .lt
  | .list _, .int _ => .lt
  | .list _, .string _ => .gt
  | .list a, .list b => compareLists a b

def compareLists : List Item → List Item → Ordering
  | [], b => b.foldr (fun right rest => (compareToNone right).swap.then rest) .eq
  | left :: a, [] => (compareToNone left).then (compareLists a [])
  | left :: a, right :: b => (compare left right).then (compareLists a b)

end

/-- The state of the parse: the open lists, innermost first, and the text since the last separator. -/
structure Parse where
  list : List Item
  outer : List (List Item)
  digits : Bool
  text : List Char

namespace Parse

def start : Parse := { list := [], outer := [], digits := false, text := [] }

/-- The item that the text up to a separator stands for. -/
def item (p : Parse) : Item := if p.text = [] then .int "0" else parseItem p.digits p.text

def push (p : Parse) (item : Item) : Parse := { p with list := p.list ++ [item] }

def openList (p : Parse) : Parse := { p with list := [], outer := p.list :: p.outer }

def step (p : Parse) (c : Char) : Parse :=
  if c = '.' then { p.push p.item with text := [] }
  else if c = '-' then { (p.push p.item).openList with text := [] }
  else if c.isDigit then
    if !p.digits && p.text ≠ [] then
      { (p.push (stringItem (String.ofList p.text) true)).openList with digits := true, text := [c] }
    else { p with digits := true, text := p.text ++ [c] }
  else
    if p.digits && p.text ≠ [] then
      { (p.push (parseItem true p.text)).openList with digits := false, text := [c] }
    else { p with digits := false, text := p.text ++ [c] }

/-- The item after the last separator, if there is text for one. -/
def flush (p : Parse) : Parse := if p.text = [] then p else p.push (parseItem p.digits p.text)

/-- Close the open lists, each normalized and appended to the one around it. -/
def finish (p : Parse) : List Item :=
  normalize (p.outer.foldl (fun list parent => parent ++ [.list (normalize list)]) p.list)

end Parse

/-- The items of a version. `lowercase` is Unicode's lower-casing. -/
def parse (lowercase : String → String) (version : String) : List Item :=
  ((lowercase version).toList.foldl Parse.step Parse.start).flush.finish

/-! ## Canonical items -/

def WithoutLeadingZeros (digits : String) : Prop :=
  digits = "0" ∨ ∃ first rest, digits = String.ofList (first :: rest) ∧ '0' < first

/-- What the parser makes: no number has leading zeros, and no list ends in a null item. -/
inductive Item.Canonical : Item → Prop
  | int {digits : String} (h : WithoutLeadingZeros digits) : Canonical (.int digits)
  | string (value : String) : Canonical (.string value)
  | list {items : List Item} (hall : ∀ item ∈ items, item.Canonical)
    (hlast : ∀ last ∈ items.getLast?, isNull last = false) : Canonical (.list items)

structure ComparableVersion where
  items : List Item
  canonical : (Item.list items).Canonical

theorem parseItem_canonical {digits : Bool} {text : List Char}
    (h : digits → ∀ c ∈ text, c.isDigit) : (parseItem digits text).Canonical := by
  unfold parseItem
  split
  next hd =>
    refine .int ?_
    cases ht : text.dropWhile (· = '0') with
    | nil => exact .inl (by simp)
    | cons first rest =>
      refine .inr ⟨first, rest, by simp, ?_⟩
      have hmem : first ∈ text := by
        apply (List.dropWhile_sublist (p := (· = '0')) (l := text)).subset
        rw [ht]
        exact List.mem_cons_self
      have hdigit := h hd first hmem
      have hne : first ≠ '0' := by
        have hhead := List.head_dropWhile_not (· = '0') (l := text) (by simp [ht])
        simpa [ht] using hhead
      simp only [Char.isDigit, Bool.and_eq_true, decide_eq_true_eq] at hdigit
      exact lt_of_le_of_ne hdigit.1 hne.symm
  next => exact .string _

theorem dropNulls_subset (items : List Item) : dropNulls items ⊆ items := by
  induction items with
  | nil => exact List.Subset.refl _
  | cons item rest ih =>
    unfold dropNulls
    split
    · exact List.Subset.trans ih (List.subset_cons_self _ _)
    · split
      · exact List.cons_subset_cons _ ih
      · exact List.Subset.refl _

theorem isNull_of_head_dropNulls {items : List Item} {item : Item}
    (h : item ∈ (dropNulls items).head?) : isNull item = false := by
  induction items with
  | nil => simp [dropNulls] at h
  | cons first rest ih =>
    unfold dropNulls at h
    split at h
    next => exact ih h
    next hn =>
      have hitem : first = item := by
        split at h <;> simpa using h
      rw [← hitem]
      simpa using hn

theorem normalize_canonical {items : List Item} (h : ∀ item ∈ items, item.Canonical) :
    (Item.list (normalize items)).Canonical := by
  unfold normalize
  refine .list (fun item hitem => ?_) (fun last hlast => ?_)
  · have hmem := dropNulls_subset _ (List.mem_reverse.mp hitem)
    exact h item (List.mem_reverse.mp hmem)
  · rw [List.getLast?_reverse] at hlast
    exact isNull_of_head_dropNulls hlast

namespace Parse

/-- Every item parsed so far is canonical, and text read as digits is digits. -/
structure Canonical (p : Parse) : Prop where
  list : ∀ item ∈ p.list, item.Canonical
  outer : ∀ list ∈ p.outer, ∀ item ∈ list, item.Canonical
  text : p.digits → ∀ c ∈ p.text, c.isDigit

variable {p : Parse}

theorem Canonical.item (h : p.Canonical) : p.item.Canonical := by
  unfold Parse.item
  split
  · exact .int (.inl rfl)
  · exact parseItem_canonical h.text

theorem Canonical.push (h : p.Canonical) {item : Item} (hitem : item.Canonical) : (p.push item).Canonical := by
  refine ⟨fun other hother => ?_, h.outer, h.text⟩
  rcases List.mem_append.mp hother with hold | hnew
  · exact h.list other hold
  · rw [List.mem_singleton.mp hnew]
    exact hitem

theorem Canonical.openList (h : p.Canonical) : p.openList.Canonical := by
  refine ⟨fun item hitem => absurd hitem List.not_mem_nil, fun list hlist => ?_, h.text⟩
  rcases List.mem_cons.mp hlist with rfl | hold
  · exact h.list
  · exact h.outer list hold

theorem Canonical.withText (h : p.Canonical) {digits : Bool} {text : List Char}
    (ht : digits → ∀ c ∈ text, c.isDigit) : { p with digits, text }.Canonical :=
  ⟨h.list, h.outer, ht⟩

theorem Canonical.step (h : p.Canonical) (c : Char) : (p.step c).Canonical := by
  unfold Parse.step
  split_ifs with hdot hdash hdigit hopen hopen
  · exact (h.push h.item).withText (by simp)
  · exact (h.push h.item).openList.withText (by simp)
  · exact (h.push (.string _)).openList.withText (by simpa using hdigit)
  · -- the flag may be stale, but only while there is no text
    refine h.withText fun _ other hother => ?_
    rcases List.mem_append.mp hother with hold | hnew
    · cases hd : p.digits with
      | true => exact h.text hd other hold
      | false =>
        have ht : p.text = [] := by simpa [hd] using hopen
        simp [ht] at hold
    · rw [List.mem_singleton.mp hnew]
      exact hdigit
  · have hd : p.digits = true := by
      simp only [Bool.and_eq_true] at hopen
      exact hopen.1
    exact (h.push (parseItem_canonical fun _ => h.text hd)).openList.withText (by simp)
  · exact h.withText (by simp)

theorem Canonical.run (h : p.Canonical) (text : List Char) : (text.foldl Parse.step p).Canonical := by
  induction text generalizing p with
  | nil => exact h
  | cons c text ih => exact ih (h.step c)

theorem Canonical.flush (h : p.Canonical) : p.flush.Canonical := by
  unfold Parse.flush
  split
  · exact h
  · exact h.push (parseItem_canonical h.text)

theorem Canonical.finish (h : p.Canonical) : (Item.list p.finish).Canonical := by
  unfold Parse.finish
  apply normalize_canonical
  obtain ⟨hlist, houter, -⟩ := h
  generalize p.list = list at hlist ⊢
  generalize p.outer = outer at houter ⊢
  induction outer generalizing list with
  | nil => exact hlist
  | cons parent outer ih =>
    rw [List.foldl_cons]
    refine ih _ (fun item hitem => ?_) fun other hother => houter other (List.mem_cons_of_mem _ hother)
    rcases List.mem_append.mp hitem with hold | hnew
    · exact houter parent List.mem_cons_self item hold
    · rw [List.mem_singleton.mp hnew]
      exact normalize_canonical hlist

end Parse

theorem parse_canonical (lowercase : String → String) (version : String) :
    (Item.list (parse lowercase version)).Canonical := by
  have hstart : Parse.start.Canonical := ⟨by simp [Parse.start], by simp [Parse.start], by simp [Parse.start]⟩
  exact (hstart.run _).flush.finish

namespace ComparableVersion

def new (lowercase : String → String) (version : String) : ComparableVersion :=
  ⟨parse lowercase version, parse_canonical lowercase version⟩

def compare (a b : ComparableVersion) : Ordering := compareLists a.items b.items

end ComparableVersion

end Krusty.Toolchain.Maven
