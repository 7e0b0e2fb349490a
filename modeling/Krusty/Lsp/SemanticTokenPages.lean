import Krusty.Lsp.SemanticTokens

/-! The frames of an answer hold the delta encoding of the tokens that overlap the range, each within the limit. -/
namespace Krusty.Lsp.SemanticTokens

open Json

/-! ### Selection -/

/-- The tokens follow one another without overlapping. -/
def Ordered (entries : List Entry) : Prop := entries.Pairwise fun a b => a.endPlace ≤ b.startPlace

/-- A token ends after the start of the range and starts before its end. -/
def Overlaps (range : Option Range) (entry : Entry) : Prop :=
  ∀ r ∈ range, r.startPlace < entry.endPlace ∧ entry.startPlace < r.endPlace

instance (range : Option Range) (entry : Entry) : Decidable (Overlaps range entry) :=
  inferInstanceAs (Decidable (∀ r ∈ range, _ ∧ _))

theorem Entry.start_le_end (entry : Entry) : entry.startPlace ≤ entry.endPlace := by
  refine Prod.Lex.toLex_le_toLex.mpr (.inr ⟨rfl, le_min (Nat.le_add_right _ _) ?_⟩)
  exact Nat.le_pred_of_lt entry.start.toNat_lt

section Partition

variable {α : Type} {p : α → Bool} {xs : List α}

theorem drop_partitionPoint (p : α → Bool) (xs : List α) : xs.drop (partitionPoint p xs) = xs.dropWhile p := by
  induction xs with
  | nil => rfl
  | cons x xs ih =>
    rw [partitionPoint]
    cases hx : p x with
    | false => rw [List.takeWhile_cons_of_neg (by simp [hx]), List.dropWhile_cons_of_neg (by simp [hx])]; rfl
    | true =>
      rw [List.takeWhile_cons_of_pos hx, List.dropWhile_cons_of_pos hx, List.length_cons, List.drop_succ_cons, ← ih]
      rfl

theorem take_partitionPoint (p : α → Bool) (xs : List α) : xs.take (partitionPoint p xs) = xs.takeWhile p :=
  (List.prefix_iff_eq_take.mp (List.takeWhile_prefix p)).symm

theorem takeWhile_eq_filter (h : xs.Pairwise fun a b => p b = true → p a = true) : xs.takeWhile p = xs.filter p := by
  induction xs with
  | nil => rfl
  | cons x xs ih =>
    obtain ⟨hhead, hrest⟩ := List.pairwise_cons.mp h
    by_cases hx : p x = true
    · rw [List.takeWhile_cons_of_pos hx, List.filter_cons_of_pos hx, ih hrest]
    · have hnone : xs.filter p = [] := List.filter_eq_nil_iff.mpr fun y hy hp => hx (hhead y hy hp)
      rw [List.takeWhile_cons_of_neg hx, List.filter_cons_of_neg hx, hnone]

theorem dropWhile_eq_filter (h : xs.Pairwise fun a b => p b = true → p a = true) :
    xs.dropWhile p = xs.filter fun x => !p x := by
  induction xs with
  | nil => rfl
  | cons x xs ih =>
    obtain ⟨hhead, hrest⟩ := List.pairwise_cons.mp h
    by_cases hx : p x = true
    · rw [List.dropWhile_cons_of_pos hx, List.filter_cons_of_neg (by simp [hx]), ih hrest]
    · have hall : xs.filter (fun x => !p x) = xs := List.filter_eq_self.mpr fun y hy => by
        rw [Bool.not_eq_true', ← Bool.not_eq_true]
        exact fun hp => hx (hhead y hy hp)
      rw [List.dropWhile_cons_of_neg hx, List.filter_cons_of_pos (by simp [hx]), hall]

end Partition

variable {entries : List Entry}

theorem selectEntries_eq (h : Ordered entries) (range : Option Range) :
    selectEntries entries range = entries.filter fun entry => Overlaps range entry := by
  cases range with
  | none =>
    have hall : ∀ entry ∈ entries, decide (Overlaps none entry) = true := fun entry _ =>
      decide_eq_true fun r hr => by cases hr
    rw [selectEntries, List.filter_eq_self.mpr hall]
  | some range =>
    have hends : entries.Pairwise fun a b =>
        decide (b.endPlace ≤ range.startPlace) = true → decide (a.endPlace ≤ range.startPlace) = true := by
      refine h.imp fun hab hb => ?_
      rw [decide_eq_true_eq] at hb ⊢
      exact le_trans hab (le_trans (Entry.start_le_end _) hb)
    have hstarts : (entries.filter fun entry => !decide (entry.endPlace ≤ range.startPlace)).Pairwise fun a b =>
        decide (b.startPlace < range.endPlace) = true → decide (a.startPlace < range.endPlace) = true := by
      refine (h.filter _).imp fun hab hb => ?_
      rw [decide_eq_true_eq] at hb ⊢
      exact lt_of_le_of_lt (le_trans (Entry.start_le_end _) hab) hb
    rw [selectEntries, drop_partitionPoint, take_partitionPoint, dropWhile_eq_filter hends, takeWhile_eq_filter hstarts,
      List.filter_filter]
    refine List.filter_congr fun entry _ => ?_
    have hends : decide (range.startPlace < entry.endPlace) = !decide (entry.endPlace ≤ range.startPlace) := by
      rw [← decide_not]
      exact decide_eq_decide.mpr not_le.symm
    rw [Bool.and_comm, ← hends]
    simp [Overlaps]

/-! ### The encoding -/

/-- The delta encoding of a list of tokens after a token at the line and start given. -/
def deltas : ℕ → ℕ → List Entry → List ℕ
  | _, _, [] => []
  | line, start, entry :: rest =>
    [entry.line.toNat - line, if entry.line.toNat = line then entry.start.toNat - start else entry.start.toNat,
      entry.length.toNat, entry.packed.toNat % 256, entry.packed.toNat / 256] ++
      deltas entry.line.toNat entry.start.toNat rest

/-- The tokens that a client reads out of the numbers: line, start, length, type and modifiers. -/
def readTokens : ℕ → ℕ → List ℕ → List (ℕ × ℕ × ℕ × ℕ × ℕ)
  | line, start, deltaLine :: deltaStart :: length :: type :: modifiers :: rest =>
    let start := if deltaLine = 0 then start + deltaStart else deltaStart
    (line + deltaLine, start, length, type, modifiers) :: readTokens (line + deltaLine) start rest
  | _, _, _ => []

/-- The numbers as the loop writes them. -/
def encoded : UInt32 → UInt32 → List Entry → List UInt32
  | _, _, [] => []
  | line, start, entry :: rest => encodeToken line start entry ++ encoded entry.line entry.start rest

theorem Ordered.starts {entry : Entry} {rest : List Entry} (h : Ordered (entry :: rest)) :
    ∀ next ∈ rest, entry.startPlace ≤ next.startPlace := fun next hnext =>
  le_trans entry.start_le_end ((List.pairwise_cons.mp h).1 next hnext)

theorem place_le_iff {line start : ℕ} {entry : Entry} : (toLex (line, start) : Place) ≤ entry.startPlace ↔
    line < entry.line.toNat ∨ line = entry.line.toNat ∧ start ≤ entry.start.toNat := Prod.Lex.toLex_le_toLex

theorem encodeToken_toNat {line start : UInt32} {entry : Entry}
    (h : (toLex (line.toNat, start.toNat) : Place) ≤ entry.startPlace) :
    (encodeToken line start entry).map UInt32.toNat = [entry.line.toNat - line.toNat,
      if entry.line.toNat = line.toNat then entry.start.toNat - start.toNat else entry.start.toNat,
      entry.length.toNat, entry.packed.toNat % 256, entry.packed.toNat / 256] := by
  have hplace := place_le_iff.mp h
  have hline : (entry.line - line).toNat = entry.line.toNat - line.toNat :=
    UInt32.toNat_sub_of_le _ _ (UInt32.le_iff_toNat_le.mpr (by omega))
  have hzero : entry.line - line = 0 ↔ entry.line.toNat = line.toNat := by
    rw [← UInt32.toNat_inj, hline]
    change _ = 0 ↔ _
    omega
  have hlow : (entry.packed &&& 0xff).toNat = entry.packed.toNat % 256 := by
    rw [UInt32.toNat_and]
    exact Nat.and_two_pow_sub_one_eq_mod _ 8
  have hhigh : (entry.packed >>> 8).toNat = entry.packed.toNat / 256 := by
    rw [UInt32.toNat_shiftRight]
    exact Nat.shiftRight_eq_div_pow _ 8
  rw [encodeToken]
  simp only [List.map_cons, List.map_nil, hline, hlow, hhigh]
  by_cases hsame : entry.line.toNat = line.toNat
  · have hstart : (entry.start - start).toNat = entry.start.toNat - start.toNat :=
      UInt32.toNat_sub_of_le _ _ (UInt32.le_iff_toNat_le.mpr (by omega))
    rw [if_pos (hzero.mpr hsame), if_pos hsame, hstart]
  · rw [if_neg (mt hzero.mp hsame), if_neg hsame]

theorem encoded_toNat {line start : UInt32} (hordered : Ordered entries)
    (hfirst : ∀ entry ∈ entries, (toLex (line.toNat, start.toNat) : Place) ≤ entry.startPlace) :
    (encoded line start entries).map UInt32.toNat = deltas line.toNat start.toNat entries := by
  induction entries generalizing line start with
  | nil => rfl
  | cons entry rest ih =>
    have hrest := ih (List.pairwise_cons.mp hordered).2 hordered.starts
    rw [encoded, List.map_append, encodeToken_toNat (hfirst entry List.mem_cons_self), hrest, deltas]

/-! ### Sizes -/

theorem jsonU32Len_eq (n : UInt32) : jsonU32Len n = Nat.log 10 n.toNat + 1 := by
  unfold jsonU32Len
  split_ifs with hzero
  · rw [hzero]
    rfl
  · rfl

theorem jsonU32Len_le (n : UInt32) : jsonU32Len n ≤ 10 := by
  rw [jsonU32Len_eq]
  exact Nat.log_lt_of_lt_pow' (by decide) (lt_of_lt_of_le n.toNat_lt (by decide))

theorem encodeToken_length (line start : UInt32) (entry : Entry) : (encodeToken line start entry).length = 5 := rfl

theorem cost_eq (line start : UInt32) (entry : Entry) (empty : Bool) :
    semanticTokenJsonCost (encodeToken line start entry) empty =
      elementsLength (encodeToken line start entry) + if empty then 0 else 1 := by
  have hdigits : ((encodeToken line start entry).map jsonU32Len).sum ≤ 50 := by
    have hsum := List.sum_le_card_nsmul ((encodeToken line start entry).map jsonU32Len) 10 fun n hn => by
      obtain ⟨m, -, rfl⟩ := List.mem_map.mp hn
      exact jsonU32Len_le m
    rw [List.length_map, encodeToken_length] at hsum
    exact hsum
  have hlengths : ((encodeToken line start entry).map fun n => Nat.log 10 n.toNat + 1) =
      (encodeToken line start entry).map jsonU32Len := List.map_congr_left fun n _ => (jsonU32Len_eq n).symm
  have hempty : (if empty then 0 else 1) ≤ 1 := by split_ifs <;> omega
  rw [semanticTokenJsonCost, elementsLength, hlengths, encodeToken_length]
  have hfirst : saturatingAddUsize (if empty then 0 else 1) ((encodeToken line start entry).map jsonU32Len).sum =
      (if empty then 0 else 1) + ((encodeToken line start entry).map jsonU32Len).sum :=
    Nat.min_eq_left (le_trans (Nat.add_le_add hempty hdigits) (by decide))
  rw [hfirst, saturatingAddUsize, Nat.min_eq_left]
  · omega
  · exact le_trans (Nat.add_le_add_right (Nat.add_le_add hempty hdigits) _) (by decide)

/-- Within a budget that is no limit of the machine a sum that fits is exact. -/
theorem saturating_of_le {a b budget : ℕ} (hbudget : budget < USIZE_MAX) (h : ¬budget < saturatingAddUsize a b) :
    saturatingAddUsize a b = a + b ∧ a + b ≤ budget := by
  rw [saturatingAddUsize] at h ⊢
  omega

/-! ### Pages -/

/-- The pages so far and the page that is being filled keep within the budget. -/
structure Paging.Within (budget maxPages : ℕ) (s : Paging) : Prop where
  used : s.used = elementsLength s.page + 2
  room : s.used ≤ budget
  count : s.pages.length < maxPages
  fits : ∀ page ∈ s.pages, elementsLength page + 2 ≤ budget
  whole : 5 ∣ s.page.length
  wholes : ∀ page ∈ s.pages, 5 ∣ page.length

def Paging.data (s : Paging) : List UInt32 := s.pages.flatten ++ s.page

variable {budget maxPages : ℕ}

theorem within_start (hbudget : ¬budget < 2) (hmax : maxPages ≠ 0) : Paging.start.Within budget maxPages where
  used := rfl
  room := not_lt.mp hbudget
  count := Nat.pos_of_ne_zero hmax
  fits _ h := absurd h List.not_mem_nil
  whole := Nat.dvd_zero 5
  wholes _ h := absurd h List.not_mem_nil

section Step

variable {budget maxPages : ℕ} {s s' : Paging} {entry : Entry}

theorem Paging.Within.encodeEntry (hbudget : budget < USIZE_MAX) (hs : s.Within budget maxPages)
    (h : s.encodeEntry budget maxPages entry = some s') :
    s'.Within budget maxPages ∧ s'.data = s.data ++ encodeToken s.previousLine s.previousStart entry ∧
      s'.previousLine = entry.line ∧ s'.previousStart = entry.start := by
  have hne : encodeToken s.previousLine s.previousStart entry ≠ [] := List.cons_ne_nil _ _
  have hcost := cost_eq s.previousLine s.previousStart entry
  rw [Paging.encodeEntry] at h
  dsimp only at h
  split_ifs at h with hover hstop hlarge
  · -- the page is closed, and the token starts the next one
    obtain rfl := Option.some.inj h
    obtain ⟨hexact, hle⟩ := saturating_of_le hbudget hlarge
    rw [hcost true, if_pos rfl, Nat.add_zero] at hexact hle
    have hroom := hs.room
    rw [hs.used] at hroom
    refine ⟨⟨?_, ?_, ?_, ?_, ⟨1, rfl⟩, ?_⟩, ?_, rfl, rfl⟩
    · dsimp only
      rw [hcost true, if_pos rfl, Nat.add_zero, hexact, Nat.add_comm]
    · dsimp only
      rw [hcost true, if_pos rfl, Nat.add_zero, hexact]
      exact hle
    · have hcount := hs.count
      have hnext : s.pages.length + 1 ≠ maxPages := fun heq => hstop (.inr heq)
      dsimp only
      rw [List.length_append, List.length_singleton]
      omega
    · intro page hpage
      cases List.mem_append.mp hpage with
      | inl hold => exact hs.fits page hold
      | inr hnew =>
        rw [List.mem_singleton.mp hnew]
        exact hroom
    · intro page hpage
      cases List.mem_append.mp hpage with
      | inl hold => exact hs.wholes page hold
      | inr hnew =>
        rw [List.mem_singleton.mp hnew]
        exact hs.whole
    · simp [Paging.data]
  · -- the token is put on the page
    obtain rfl := Option.some.inj h
    obtain ⟨hexact, hle⟩ := saturating_of_le hbudget hover
    have hempty : (if s.page.isEmpty = true then 0 else 1) = if s.page = [] then 0 else 1 := by
      cases s.page <;> rfl
    rw [hcost, hempty, hs.used] at hexact hle
    have hused : elementsLength s.page + 2 + (elementsLength (encodeToken s.previousLine s.previousStart entry) +
        if s.page = [] then 0 else 1) =
        elementsLength (s.page ++ encodeToken s.previousLine s.previousStart entry) + 2 := by
      rw [elementsLength_append hne]
      omega
    refine ⟨⟨?_, ?_, hs.count, hs.fits, ?_, hs.wholes⟩, ?_, rfl, rfl⟩
    · dsimp only
      rw [hcost, hempty, hs.used, hexact, hused]
    · dsimp only
      rw [hcost, hempty, hs.used, hexact]
      exact hle
    · dsimp only
      rw [List.length_append, encodeToken_length]
      exact Dvd.dvd.add hs.whole (dvd_refl 5)
    · simp [Paging.data]

theorem Paging.Within.foldlM (hbudget : budget < USIZE_MAX) (hs : s.Within budget maxPages)
    (h : entries.foldlM (Paging.encodeEntry budget maxPages) s = some s') :
    s'.Within budget maxPages ∧ s'.data = s.data ++ encoded s.previousLine s.previousStart entries := by
  induction entries generalizing s with
  | nil =>
    obtain rfl := Option.some.inj h
    exact ⟨hs, (List.append_nil _).symm⟩
  | cons entry rest ih =>
    rw [List.foldlM_cons] at h
    obtain ⟨next, hnext, hrest⟩ := Option.bind_eq_some_iff.mp h
    obtain ⟨hwithin, hdata, hline, hstart⟩ := hs.encodeEntry hbudget hnext
    obtain ⟨hlast, hall⟩ := ih hwithin hrest
    rw [hline, hstart, hdata, List.append_assoc] at hall
    exact ⟨hlast, hall⟩

end Step

theorem encodePages_spec {pages : List (List UInt32)}
    (hbudget : budget < USIZE_MAX) (h : encodePages entries budget maxPages = some pages) :
    pages ≠ [] ∧ pages.length ≤ maxPages ∧ (∀ page ∈ pages, elementsLength page + 2 ≤ budget ∧ 5 ∣ page.length) ∧
      pages.flatten = encoded 0 0 entries := by
  rw [encodePages] at h
  split_ifs at h with hnone
  obtain ⟨hmax, hsmall⟩ := not_or.mp hnone
  obtain ⟨s, hfold, hfinish⟩ := Option.bind_eq_some_iff.mp h
  obtain ⟨hs, hdata⟩ := (within_start hsmall hmax).foldlM hbudget hfold
  change s.pages.flatten ++ s.page = encoded 0 0 entries at hdata
  have hroom := hs.room
  rw [hs.used] at hroom
  rw [Paging.finish] at hfinish
  split_ifs at hfinish with hboth hpage
  · obtain rfl := Option.some.inj hfinish
    have hpages : s.pages = [] := List.isEmpty_iff.mp hboth.2
    rw [hpages, List.flatten_nil, List.nil_append] at hdata
    refine ⟨List.cons_ne_nil _ _, Nat.pos_of_ne_zero hmax, ?_, by rw [List.flatten_singleton]; exact hdata⟩
    intro page hmem
    rw [List.mem_singleton.mp hmem]
    exact ⟨hroom, hs.whole⟩
  · obtain rfl := Option.some.inj hfinish
    have hempty : s.page = [] := List.isEmpty_iff.mp hpage
    rw [hempty, List.append_nil] at hdata
    refine ⟨?_, hs.count.le, fun page hmem => ⟨hs.fits page hmem, hs.wholes page hmem⟩, hdata⟩
    intro hnil
    exact hboth ⟨List.isEmpty_iff.mpr hempty, List.isEmpty_iff.mpr hnil⟩
  · obtain rfl := Option.some.inj hfinish
    refine ⟨by simp, ?_, ?_, by rw [List.flatten_append, List.flatten_singleton]; exact hdata⟩
    · rw [List.length_append]
      exact hs.count
    · intro page hmem
      cases List.mem_append.mp hmem with
      | inl hold => exact ⟨hs.fits page hold, hs.wholes page hold⟩
      | inr hnew =>
        rw [List.mem_singleton.mp hnew]
        exact ⟨hroom, hs.whole⟩

/-! ### Frames -/

/-- A message in which a value stands once, whatever the value is. -/
def Envelope (frame : Value → Value) : Prop := ∀ value other,
  jsonLen (frame value) + (toVec other).length = jsonLen (frame other) + (toVec value).length

theorem envelope_result (id : Value) : Envelope (resultMessage id) := by
  intro value other
  simp only [jsonLen, toVec, resultMessage, Value.text, fieldTexts, List.intercalate_cons_cons,
    List.intercalate_singleton, List.cons_append, toUtf8_cons, toUtf8_append, List.length_append]
  omega

theorem envelope_progress (token : Value) : Envelope (progressMessage token) := by
  intro value other
  simp only [jsonLen, toVec, progressMessage, Value.text, fieldTexts, List.intercalate_cons_cons,
    List.intercalate_singleton, List.cons_append, toUtf8_cons, toUtf8_append, List.length_append]
  omega

theorem length_dataObject (data : List UInt32) :
    (toVec (dataObject data)).length = elementsLength data + (toVec (dataObject [])).length := by
  have hdata := length_numbers data
  have hnone := length_numbers []
  have hzero : elementsLength [] = 0 := rfl
  rw [toVec] at hdata hnone
  simp only [toVec, dataObject, Value.text, fieldTexts, List.intercalate_singleton, List.cons_append, toUtf8_cons,
    toUtf8_append, List.length_append, hdata, hnone]
  omega

section Frames

variable {frame : Value → Value} {budget : ℕ}

theorem budget_lt (h : dataBudget (frame (dataObject [])) = some budget) : budget < USIZE_MAX := by
  rw [dataBudget] at h
  split_ifs at h
  obtain rfl := Option.some.inj h
  exact lt_of_le_of_lt (Nat.add_le_add_right (Nat.sub_le _ _) 2) (by decide)

/-- A page within the budget makes a frame within the limit. -/
theorem frame_le (hframe : Envelope frame) (h : dataBudget (frame (dataObject [])) = some budget)
    {page : List UInt32} (hpage : elementsLength page + 2 ≤ budget) :
    jsonLen (frame (dataObject page)) ≤ RESPONSE_PAGE_BYTES := by
  have hlength := hframe (dataObject page) (dataObject [])
  rw [length_dataObject page] at hlength
  rw [dataBudget] at h
  split_ifs at h with hlarge
  have heq := Option.some.inj h
  omega

theorem empty_frame_le (h : dataBudget (frame (dataObject [])) = some budget) :
    jsonLen (frame (dataObject [])) ≤ RESPONSE_PAGE_BYTES := by
  rw [dataBudget] at h
  split_ifs at h with hlarge
  exact not_lt.mp hlarge

end Frames

/-- The pages of an answer hold the delta encoding of the tokens that overlap the range, in whole tokens. -/
structure Answers (entries : List Entry) (range : Option Range) (pages : List (List UInt32)) : Prop where
  data : pages.flatten.map UInt32.toNat = deltas 0 0 (entries.filter fun entry => Overlaps range entry)
  whole : ∀ page ∈ pages, 5 ∣ page.length

theorem answers_of_encodePages (hordered : Ordered entries) {range : Option Range}
    {pages : List (List UInt32)} (hbudget : budget < USIZE_MAX)
    (h : encodePages (selectEntries entries range) budget maxPages = some pages) : Answers entries range pages := by
  obtain ⟨-, -, hpages, hdata⟩ := encodePages_spec hbudget h
  have hselected : Ordered (entries.filter fun entry => Overlaps range entry) := hordered.filter _
  refine ⟨?_, fun page hpage => (hpages page hpage).2⟩
  rw [hdata, selectEntries_eq hordered]
  exact encoded_toNat hselected fun entry _ => place_le_iff.mpr (by
    change 0 < _ ∨ 0 = _ ∧ 0 ≤ _
    omega)

example : (encodePages [⟨0, 0, 3, 1⟩, ⟨0, 3, 2, 0x102⟩, ⟨2, 4, 1, 0⟩] 26 2) =
    some [[0, 0, 3, 1, 0, 0, 3, 2, 2, 1], [2, 4, 1, 0, 0]] := by
  decide

end Krusty.Lsp.SemanticTokens
