import Krusty.Lib.LeastRecent
import Mathlib

/-! A count-bounded cache that drops its least recently used entry. -/
namespace Krusty.Lru

/-- An eviction candidate, ordered by its tick. -/
structure Recency (K : Type) where
  tick : ℕ
  key : K
deriving DecidableEq

/-- The map holds each value with its stamp. -/
structure LruCache (K V : Type) where
  cap : ℕ
  tick : ℕ
  map : AList fun _ : K => V × ℕ
  recency : List (Recency K)

/-- What a caller does to a cache; `write` is the caller's write through the reference that `get_mut` returns. -/
inductive Op (K V : Type) where
  | get (k : K)
  | getMut (k : K) (write : V → V)
  | insert (k : K) (v : V)
  | remove (k : K)
  | clear

namespace LruCache

variable {K V : Type}

def withCap (cap : ℕ) : LruCache K V where
  cap := max cap 1
  tick := 0
  map := ∅
  recency := []

/-- `configured` is what `KRUSTY_CACHE_CAP` parses as. -/
def new (configured : Option ℕ) (defaultCap : ℕ) : LruCache K V :=
  withCap (max (configured.getD defaultCap) 1)

def newFixed (cap : ℕ) : LruCache K V := withCap cap

variable [DecidableEq K]

/-- `self.tick += 1` on a `u64`, where it may wrap. -/
def nextTick (self : LruCache K V) : ℕ := (self.tick + 1) % 2 ^ 64

/-- The value of `k`, and the cache once the caller left `write` of it there. -/
def getMut (self : LruCache K V) (k : K) (write : V → V) : Option V × LruCache K V :=
  match self.map.lookup k with
  | none => (none, { self with tick := self.nextTick })
  | some (v, _) =>
    (some v, { self with tick := self.nextTick, map := self.map.insert k (write v, self.nextTick) })

def get (self : LruCache K V) (k : K) : Option V × LruCache K V :=
  match self.map.lookup k with
  | none => (none, { self with tick := self.nextTick })
  | some (v, _) => (some v, { self with tick := self.nextTick, map := self.map.insert k (v, self.nextTick) })

def containsKey (self : LruCache K V) (k : K) : Bool := k ∈ self.map

def len (self : LruCache K V) : ℕ := self.map.keys.length

def values (self : LruCache K V) : List V := self.map.entries.map fun e => e.2.1

/-- The eviction walk over at most `fuel` candidates: `none` when it is not over by then. -/
def evict : ℕ → AList (fun _ : K => V × ℕ) → List (Recency K) →
    Option (AList (fun _ : K => V × ℕ) × List (Recency K))
  | 0, _, _ => none
  | fuel + 1, map, recency =>
    match PriorityQueue.popMin Recency.tick recency with
    | none => some (map, recency)
    | some (candidate, rest) =>
      match map.lookup candidate.key with
      | none => evict fuel map rest
      | some (_, current) =>
        if current = candidate.tick then some (map.erase candidate.key, rest)
        else evict fuel map ({ tick := current, key := candidate.key } :: rest)

/-- Every record is popped twice at most: once to be refreshed. -/
def walkLength (recency : List (Recency K)) : ℕ := 2 * recency.length + 1

/-- `none` when the eviction walk does not end. -/
def insert (self : LruCache K V) (k : K) (v : V) : Option (LruCache K V) := do
  let t := self.nextTick
  let replacing := self.containsKey k
  let (map, recency) ←
    if self.len ≥ self.cap && !replacing then evict (walkLength self.recency) self.map self.recency
    else some (self.map, self.recency)
  if replacing then return { self with tick := t, map := map.insert k (v, t), recency }
  else return { self with tick := t, map := map.insert k (v, t), recency := { tick := t, key := k } :: recency }

/-- The records of the key stay behind. -/
def remove (self : LruCache K V) (k : K) : Option V × LruCache K V :=
  ((self.map.lookup k).map Prod.fst, { self with map := self.map.erase k })

def clear (self : LruCache K V) : LruCache K V := { self with map := ∅, recency := [] }

/-- One operation, and what it answers the caller. -/
def apply (self : LruCache K V) : Op K V → Option (Option V × LruCache K V)
  | .get k => some (self.get k)
  | .getMut k write => some (self.getMut k write)
  | .insert k v => (self.insert k v).map fun cache => (none, cache)
  | .remove k => some (self.remove k)
  | .clear => some (none, self.clear)

end LruCache

end Krusty.Lru

/-! The eviction walk ends, and takes the key with the oldest stamp. -/
namespace Krusty.Lru.LruCache

open PriorityQueue

variable {K V : Type} [DecidableEq K] {rel : ℕ → ℕ → Prop} {map : AList fun _ : K => V × ℕ}
  {recency rest : List (Recency K)}

/-- Every live key has a record whose tick stands in `rel` to the key's stamp. -/
def Backed (rel : ℕ → ℕ → Prop) (map : AList fun _ : K => V × ℕ) (recency : List (Recency K)) : Prop :=
  ∀ k v s, map.lookup k = some (v, s) → ∃ r ∈ recency, r.key = k ∧ rel r.tick s

/-- How many more times the walk pops a record. -/
def weight (map : AList fun _ : K => V × ℕ) (r : Recency K) : ℕ :=
  match map.lookup r.key with
  | none => 1
  | some (_, current) => if current = r.tick then 1 else 2

theorem weight_pos (map : AList fun _ : K => V × ℕ) (r : Recency K) : 1 ≤ weight map r := by
  unfold weight
  split
  · exact le_rfl
  · split_ifs <;> omega

theorem weight_le_two (map : AList fun _ : K => V × ℕ) (r : Recency K) : weight map r ≤ 2 := by
  unfold weight
  split
  · omega
  · split_ifs <;> omega

theorem weight_fresh {k : K} {v : V} {s : ℕ} (h : map.lookup k = some (v, s)) :
    weight map ⟨s, k⟩ = 1 := by
  simp [weight, h]

theorem weight_stale {r : Recency K} {v : V} {s : ℕ} (h : map.lookup r.key = some (v, s)) (hne : s ≠ r.tick) :
    weight map r = 2 := by
  simp [weight, h, hne]

theorem sum_weight_lt (map : AList fun _ : K => V × ℕ) (recency : List (Recency K)) :
    (recency.map (weight map)).sum < walkLength recency := by
  have hle : (recency.map (weight map)).sum ≤ (recency.map (weight map)).length • 2 := by
    apply List.sum_le_card_nsmul
    intro n hn
    obtain ⟨r, -, rfl⟩ := List.mem_map.mp hn
    exact weight_le_two map r
  rw [List.length_map, smul_eq_mul] at hle
  unfold walkLength
  omega

variable {candidate : Recency K}

theorem sum_weight_popMin
    (h : popMin Recency.tick recency = some (candidate, rest)) (map : AList fun _ : K => V × ℕ) :
    (recency.map (weight map)).sum = weight map candidate + (rest.map (weight map)).sum := by
  have hperm := (popMin_spec h).1.map (weight map)
  rw [hperm.sum_eq, List.map_cons, List.sum_cons]

/-- The walk takes `k` out, and leaves `rest` of the records. -/
structure Evicts (rel : ℕ → ℕ → Prop) (map : AList fun _ : K => V × ℕ) (recency : List (Recency K)) (k : K)
    (rest : List (Recency K)) : Prop where
  shorter : rest.length < recency.length
  backed : Backed rel (map.erase k) rest
  /-- Any other stamp stands to some tick that is no older than the stamp of `k`. -/
  oldest : ∃ v s, map.lookup k = some (v, s) ∧
    ∀ k' v' s', map.lookup k' = some (v', s') → ∃ t, s ≤ t ∧ rel t s'

/-- Dropping a record whose key is dead leaves the others backed. -/
theorem Backed.drop (h : Backed rel map recency)
    (hpop : popMin Recency.tick recency = some (candidate, rest)) (hdead : map.lookup candidate.key = none) :
    Backed rel map rest := by
  intro k v s hk
  obtain ⟨r, hr, rfl, hrel⟩ := h k v s hk
  have hne : r ≠ candidate := by
    rintro rfl
    rw [hdead] at hk
    cases hk
  exact ⟨r, mem_rest hpop hr hne, rfl, hrel⟩

/-- A record brought up to its key's stamp backs the key as well. -/
theorem Backed.refresh {v : V} {s : ℕ} (hrefl : ∀ s, rel s s)
    (h : Backed rel map recency) (hpop : popMin Recency.tick recency = some (candidate, rest))
    (hlive : map.lookup candidate.key = some (v, s)) :
    Backed rel map ({ tick := s, key := candidate.key } :: rest) := by
  intro k v' s' hk
  by_cases hkey : k = candidate.key
  · subst hkey
    rw [hlive] at hk
    cases hk
    exact ⟨_, List.mem_cons_self .., rfl, hrefl s⟩
  · obtain ⟨r, hr, rfl, hrel⟩ := h k v' s' hk
    have hne : r ≠ candidate := fun heq => hkey (congrArg Recency.key heq)
    exact ⟨r, List.mem_cons_of_mem _ (mem_rest hpop hr hne), rfl, hrel⟩

theorem Backed.erase (h : Backed rel map recency)
    (hpop : popMin Recency.tick recency = some (candidate, rest)) :
    Backed rel (map.erase candidate.key) rest := by
  intro k v s hk
  have hkey : k ≠ candidate.key := by
    rintro rfl
    rw [AList.lookup_erase] at hk
    cases hk
  rw [AList.lookup_erase_ne hkey] at hk
  obtain ⟨r, hr, rfl, hrel⟩ := h k v s hk
  have hne : r ≠ candidate := fun heq => hkey (congrArg Recency.key heq)
  exact ⟨r, mem_rest hpop hr hne, rfl, hrel⟩

/-- The candidate with the least tick of all, when its stamp is current, is the oldest entry. -/
theorem Backed.evicts {v : V} (h : Backed rel map recency)
    (hpop : popMin Recency.tick recency = some (candidate, rest))
    (hlive : map.lookup candidate.key = some (v, candidate.tick)) :
    Evicts rel map recency candidate.key rest where
  shorter := by
    have hlen := length_popMin hpop
    omega
  backed := h.erase hpop
  oldest := by
    refine ⟨v, candidate.tick, hlive, ?_⟩
    intro k' v' s' hk'
    obtain ⟨r, hr, -, hrel⟩ := h k' v' s' hk'
    exact ⟨r.tick, (popMin_spec hpop).2 r hr, hrel⟩

/-- The walk over backed keys ends within its length with one of them gone. -/
theorem evict_spec {fuel : ℕ} (hrefl : ∀ s, rel s s) (hbacked : Backed rel map recency)
    (hnonempty : ∃ k, k ∈ map) (hfuel : (recency.map (weight map)).sum < fuel) :
    ∃ k rest, evict fuel map recency = some (map.erase k, rest) ∧ Evicts rel map recency k rest := by
  induction fuel generalizing recency with
  | zero => omega
  | succ fuel ih =>
    unfold evict
    cases hpop : popMin Recency.tick recency with
    | none =>
      -- an empty heap backs no key
      obtain ⟨k, hk⟩ := hnonempty
      obtain ⟨⟨v, s⟩, hlookup⟩ := Option.isSome_iff_exists.mp (AList.lookup_isSome.mpr hk)
      obtain ⟨r, hr, -⟩ := hbacked k v s hlookup
      rw [popMin_eq_none.mp hpop] at hr
      cases hr
    | some popped =>
      obtain ⟨candidate, rest⟩ := popped
      have hlen := length_popMin hpop
      have hsum := sum_weight_popMin hpop map
      dsimp only
      cases hlookup : map.lookup candidate.key with
      | none =>
        have hpos := weight_pos map candidate
        obtain ⟨k, left, hwalk, hevicts⟩ := ih (hbacked.drop hpop hlookup) (by omega)
        refine ⟨k, left, hwalk, ?_, hevicts.backed, hevicts.oldest⟩
        have hshorter := hevicts.shorter
        omega
      | some live =>
        obtain ⟨v, current⟩ := live
        dsimp only
        split_ifs with htick
        · subst htick
          exact ⟨candidate.key, rest, rfl, hbacked.evicts hpop hlookup⟩
        · have hstale := weight_stale hlookup htick
          have hfresh := weight_fresh hlookup
          have hless : ((({ tick := current, key := candidate.key } : Recency K) :: rest).map (weight map)).sum < fuel := by
            rw [List.map_cons, List.sum_cons, hfresh]
            omega
          obtain ⟨k, left, hwalk, hevicts⟩ := ih (hbacked.refresh hrefl hpop hlookup) hless
          refine ⟨k, left, hwalk, ?_, hevicts.backed, hevicts.oldest⟩
          have hshorter := hevicts.shorter
          rw [List.length_cons] at hshorter
          omega

theorem Backed.use {k : K} {v : V} {s t : ℕ} (h : Backed rel map recency) (hlive : map.lookup k = some (v, s))
    (hmono : ∀ tick, rel tick s → rel tick t) (w : V) : Backed rel (map.insert k (w, t)) recency := by
  intro k' v' s' hk'
  by_cases hkey : k' = k
  · subst hkey
    rw [AList.lookup_insert] at hk'
    cases hk'
    obtain ⟨r, hr, hrkey, hrel⟩ := h k' v s hlive
    exact ⟨r, hr, hrkey, hmono _ hrel⟩
  · rw [AList.lookup_insert_ne hkey] at hk'
    exact h k' v' s' hk'

theorem Backed.insert {t : ℕ} (h : Backed rel map recency) (hrefl : rel t t) (k : K) (v : V) :
    Backed rel (map.insert k (v, t)) ({ tick := t, key := k } :: recency) := by
  intro k' v' s' hk'
  by_cases hkey : k' = k
  · subst hkey
    rw [AList.lookup_insert] at hk'
    cases hk'
    exact ⟨_, List.mem_cons_self .., rfl, hrefl⟩
  · rw [AList.lookup_insert_ne hkey] at hk'
    obtain ⟨r, hr, hrest⟩ := h k' v' s' hk'
    exact ⟨r, List.mem_cons_of_mem _ hr, hrest⟩

theorem Backed.remove (h : Backed rel map recency) (k : K) : Backed rel (map.erase k) recency := by
  intro k' v' s' hk'
  have hkey : k' ≠ k := by
    rintro rfl
    rw [AList.lookup_erase] at hk'
    cases hk'
  rw [AList.lookup_erase_ne hkey] at hk'
  exact h k' v' s' hk'

theorem backed_empty (recency : List (Recency K)) : Backed rel (∅ : AList fun _ : K => V × ℕ) recency := by
  intro k v s hk
  rw [AList.lookup_empty] at hk
  cases hk

section Insert

variable {self : LruCache K V} {k : K}

theorem insert_replacing (h : k ∈ self.map) (v : V) :
    self.insert k v = some { self with tick := self.nextTick, map := self.map.insert k (v, self.nextTick) } := by
  have hreplacing : self.containsKey k = true := decide_eq_true h
  simp [LruCache.insert, hreplacing]

theorem insert_below (h : k ∉ self.map) (hroom : self.len < self.cap) (v : V) :
    self.insert k v = some { self with
      tick := self.nextTick
      map := self.map.insert k (v, self.nextTick)
      recency := { tick := self.nextTick, key := k } :: self.recency } := by
  have hreplacing : self.containsKey k = false := decide_eq_false h
  have hwalk : ¬ self.cap ≤ self.len := Nat.not_le.mpr hroom
  simp [LruCache.insert, hreplacing, hwalk]

/-- At capacity a new key takes the place of one whose stamp is the oldest. -/
theorem insert_full (hrefl : ∀ s, rel s s) (hbacked : Backed rel self.map self.recency) (hcap : 0 < self.cap)
    (h : k ∉ self.map) (hfull : self.cap ≤ self.len) (v : V) :
    ∃ victim rest, Evicts rel self.map self.recency victim rest ∧
      self.insert k v = some { self with
        tick := self.nextTick
        map := (self.map.erase victim).insert k (v, self.nextTick)
        recency := { tick := self.nextTick, key := k } :: rest } := by
  have hreplacing : self.containsKey k = false := decide_eq_false h
  have hnonempty : ∃ k, k ∈ self.map := List.exists_mem_of_length_pos (hcap.trans_le hfull)
  obtain ⟨victim, rest, hwalk, hevicts⟩ := evict_spec hrefl hbacked hnonempty (sum_weight_lt ..)
  refine ⟨victim, rest, hevicts, ?_⟩
  simp [LruCache.insert, hreplacing, hfull, hwalk]

end Insert

end Krusty.Lru.LruCache
