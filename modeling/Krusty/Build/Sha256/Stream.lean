import Krusty.Build.CacheKey
import Krusty.Build.Sha256.Rounds

/-! A message hashed as its pieces arrive. -/
namespace Krusty.Build

structure Sha256 where
  state : Sha2.Registers UInt32
  buffer : List UInt8
  buffered : ℕ
  length : UInt64
  length_buffer : buffer.length = 64
  buffered_lt : buffered < 64

namespace Sha256

open Sha2 (Registers hashBlocks hashBlocks_append hashBlocks_block)

/-- `Sha256::default`. -/
def init : Sha256 where
  state := IV
  buffer := List.replicate 64 0
  buffered := 0
  length := 0
  length_buffer := List.length_replicate
  buffered_lt := by decide

/-- Data added to the started block, which is compressed once it is whole. -/
def push (self : Sha256) (data : List UInt8) (h : self.buffered + data.length ≤ 64) : Sha256 :=
  let buffer := LittleEndian.write self.buffer self.buffered data
  have hbuffer : buffer.length = 64 := by
    rw [LittleEndian.write_length (by rwa [self.length_buffer]), self.length_buffer]
  if hfull : self.buffered + data.length = 64 then
    { self with
      state := compress self.state buffer, buffer, buffered := 0, length_buffer := hbuffer, buffered_lt := by decide }
  else
    { self with
      buffer, buffered := self.buffered + data.length, length_buffer := hbuffer, buffered_lt := by omega }

/-- The first step of `update`, with the data after it. -/
def fill (self : Sha256) (data : List UInt8) : Sha256 × List UInt8 :=
  if 0 < self.buffered then
    let take := min (64 - self.buffered) data.length
    (self.push (data.take take) (by have := self.buffered_lt; rw [List.length_take]; omega), data.drop take)
  else (self, data)

/-- The whole blocks of the data compressed, with the data after them. -/
def absorb (state : Registers UInt32) (data : List UInt8) : Registers UInt32 × List UInt8 :=
  if 64 ≤ data.length then absorb (compress state (data.take 64)) (data.drop 64) else (state, data)
termination_by data.length
decreasing_by
  rw [List.length_drop]
  omega

/-- The last step of `update`, which keeps the data that does not make a block. -/
def keep (self : Sha256) (data : List UInt8) (h : data.length < 64) : Sha256 :=
  if data = [] then self
  else { self with
    buffer := LittleEndian.write self.buffer 0 data, buffered := data.length, buffered_lt := h
    length_buffer := by rw [LittleEndian.write_length (by rw [self.length_buffer]; omega), self.length_buffer] }

/-- The bytes of the state's words, most significant first. -/
def bytesOf (state : Registers UInt32) : List UInt8 := state.toList.flatMap fun word => Bytes.beBytes 4 word.toNat

theorem absorb_short (state : Registers UInt32) (data : List UInt8) : (absorb state data).2.length < 64 := by
  induction state, data using absorb.induct with
  | case1 state data hlong ih => rwa [absorb, if_pos hlong]
  | case2 state data hshort =>
    rw [absorb, if_neg hshort]
    exact not_le.mp hshort

def update (self : Sha256) (data : List UInt8) : Sha256 :=
  let self := { self with length := self.length + UInt64.ofNat data.length }
  let filled := self.fill data
  let absorbed := absorb filled.1.state filled.2
  { filled.1 with state := absorbed.1 }.keep absorbed.2 (absorb_short ..)

/-! ### What a state stands for -/

/-- The bytes kept for a block that is not whole. -/
def pending (self : Sha256) : List UInt8 := self.buffer.take self.buffered

theorem length_pending (self : Sha256) : self.pending.length = self.buffered := by
  have hlt := self.buffered_lt
  rw [pending, List.length_take_of_le (by rw [self.length_buffer]; omega)]

/-- From the hash value `start`, the whole blocks of the message are hashed and the bytes after them are kept. -/
def Holds (start : Registers UInt32) (self : Sha256) (message : List UInt8) : Prop :=
  ∃ hashed, 64 ∣ hashed.length ∧ message = hashed ++ self.pending ∧ self.state = hashBlocks start hashed

theorem holds_self (self : Sha256) : Holds self.state self self.pending := ⟨[], by simp, rfl, rfl⟩

section Steps

variable {start : Registers UInt32} {self : Sha256} {message : List UInt8}

theorem Holds.buffered_eq (h : Holds start self message) : self.buffered = message.length % 64 := by
  obtain ⟨hashed, hwhole, rfl, -⟩ := h
  have hlt := self.buffered_lt
  rw [List.length_append, length_pending]
  omega

theorem take_write (buffer data : List UInt8) {pos : ℕ} (h : pos ≤ buffer.length) :
    (LittleEndian.write buffer pos data).take (pos + data.length) = buffer.take pos ++ data := by
  have hlength : (buffer.take pos ++ data).length = pos + data.length := by
    rw [List.length_append, List.length_take_of_le h]
  rw [LittleEndian.write, ← hlength, List.take_left]

theorem push_holds (h : Holds start self message) {data : List UInt8} (hle : self.buffered + data.length ≤ 64) :
    Holds start (self.push data hle) (message ++ data) := by
  obtain ⟨hashed, hwhole, rfl, hstate⟩ := h
  have hwrite : (LittleEndian.write self.buffer self.buffered data).take (self.buffered + data.length) =
      self.pending ++ data := take_write _ _ (by rw [self.length_buffer]; omega)
  unfold push
  dsimp only
  split
  · next hfull =>
    have hlength : (self.pending ++ data).length = 64 := by rw [List.length_append, length_pending, hfull]
    have hblock : LittleEndian.write self.buffer self.buffered data = self.pending ++ data := by
      have hwritten : (LittleEndian.write self.buffer self.buffered data).length = 64 := by
        rw [LittleEndian.write_length (by rwa [self.length_buffer]), self.length_buffer]
      rwa [hfull, List.take_of_length_le (le_of_eq hwritten)] at hwrite
    refine ⟨hashed ++ (self.pending ++ data), ?_, ?_, ?_⟩
    · rw [List.length_append, hlength]
      exact (Nat.dvd_add_self_right).mpr hwhole
    · change _ = _ ++ List.take 0 _
      rw [List.take_zero, List.append_nil, List.append_assoc]
    · change compress self.state _ = _
      rw [hashBlocks_append start _ hwhole, hashBlocks_block _ hlength, ← hstate, hblock, compress_eq]
  · refine ⟨hashed, hwhole, ?_, hstate⟩
    change _ = hashed ++ List.take (self.buffered + data.length) _
    rw [hwrite, List.append_assoc]

theorem push_full {data : List UInt8} (hfull : self.buffered + data.length = 64) :
    (self.push data (le_of_eq hfull)).buffered = 0 := by
  rw [push, dif_pos hfull]

/-- A started block takes all the data, or no block is started after it. -/
theorem fill_holds (h : Holds start self message) (data : List UInt8) :
    ((self.fill data).2 = [] ∨ (self.fill data).1.buffered = 0) ∧
      ∃ taken, data = taken ++ (self.fill data).2 ∧ Holds start (self.fill data).1 (message ++ taken) := by
  unfold fill
  by_cases hpos : 0 < self.buffered
  · have hlt := self.buffered_lt
    rw [if_pos hpos]
    constructor
    · by_cases hall : data.length ≤ 64 - self.buffered
      · have hmin : min (64 - self.buffered) data.length = data.length := Nat.min_eq_right hall
        left
        change data.drop (min (64 - self.buffered) data.length) = []
        rw [hmin, List.drop_length]
      · right
        apply push_full
        rw [List.length_take]
        omega
    · exact ⟨_, (List.take_append_drop ..).symm, push_holds h (by rw [List.length_take]; omega)⟩
  · rw [if_neg hpos]
    refine ⟨.inr (Nat.eq_zero_of_not_pos hpos), [], rfl, ?_⟩
    rwa [List.append_nil]

theorem absorb_eq (state : Registers UInt32) (data : List UInt8) :
    ∃ whole, 64 ∣ whole.length ∧ data = whole ++ (absorb state data).2 ∧
      (absorb state data).1 = hashBlocks state whole := by
  induction state, data using absorb.induct with
  | case1 state data hlong ih =>
    obtain ⟨whole, hwhole, hdata, hstate⟩ := ih
    have hlength : (data.take 64).length = 64 := List.length_take_of_le hlong
    rw [absorb, if_pos hlong]
    refine ⟨data.take 64 ++ whole, ?_, ?_, ?_⟩
    · rw [List.length_append, hlength]
      exact (Nat.dvd_add_right (dvd_refl 64)).mpr hwhole
    · rw [List.append_assoc, ← hdata, List.take_append_drop]
    · rw [hstate, hashBlocks_append state _ (by rw [hlength]), hashBlocks_block state hlength, compress_eq]
  | case2 state data hshort =>
    rw [absorb, if_neg hshort]
    exact ⟨[], by simp, rfl, rfl⟩

/-- Whole blocks are hashed after the message when nothing is kept. -/
theorem absorbed_holds {state : Registers UInt32} {whole : List UInt8} (h : Holds start self message)
    (hwhole : 64 ∣ whole.length) (hstate : state = hashBlocks self.state whole) (hempty : whole = [] ∨ self.buffered = 0) :
    Holds start { self with state } (message ++ whole) := by
  obtain ⟨hashed, hhashed, rfl, hself⟩ := h
  cases hempty with
  | inl hnil =>
    subst hnil
    refine ⟨hashed, hhashed, List.append_nil _, ?_⟩
    rw [← hself]
    exact hstate
  | inr hzero =>
    refine ⟨hashed ++ whole, ?_, ?_, ?_⟩
    · rw [List.length_append]
      exact Nat.dvd_add hhashed hwhole
    · have hpending : self.pending = [] := by rw [pending, hzero, List.take_zero]
      change _ = _ ++ self.pending
      rw [hpending, List.append_nil, List.append_nil]
    · rw [hashBlocks_append start _ hhashed, ← hself]
      exact hstate

theorem keep_holds (h : Holds start self message) (data : List UInt8) (hdata : data.length < 64)
    (hempty : data = [] ∨ self.buffered = 0) : Holds start (self.keep data hdata) (message ++ data) := by
  obtain ⟨hashed, hwhole, rfl, hstate⟩ := h
  unfold keep
  by_cases hnil : data = []
  · rw [if_pos hnil, hnil, List.append_nil]
    exact ⟨hashed, hwhole, rfl, hstate⟩
  · have hzero : self.buffered = 0 := hempty.resolve_left hnil
    have hwrite := take_write self.buffer data (Nat.zero_le _)
    rw [Nat.zero_add] at hwrite
    rw [if_neg hnil]
    refine ⟨hashed, hwhole, ?_, hstate⟩
    rw [pending, pending, hwrite, hzero, List.take_zero, List.append_nil]
    rfl

/-- An update adds its data to the message, wherever it cuts a block. -/
theorem update_holds (h : Holds start self message) (data : List UInt8) :
    Holds start (self.update data) (message ++ data) := by
  have hlength : Holds start { self with length := self.length + UInt64.ofNat data.length } message := h
  obtain ⟨hempty, taken, hdata, hfilled⟩ := fill_holds hlength data
  obtain ⟨whole, hwhole, hrest, hstate⟩ := absorb_eq
    (fill { self with length := self.length + UInt64.ofNat data.length } data).1.state
    (fill { self with length := self.length + UInt64.ofNat data.length } data).2
  have habsorbed := absorbed_holds hfilled hwhole hstate (hempty.imp_left fun hnil => by
    rw [hnil] at hrest
    exact (List.append_eq_nil_iff.mp hrest.symm).1)
  have hmessage : message ++ data = message ++ taken ++ whole ++ (absorb
      (fill { self with length := self.length + UInt64.ofNat data.length } data).1.state
      (fill { self with length := self.length + UInt64.ofNat data.length } data).2).2 := by
    rw [List.append_assoc, ← hrest, List.append_assoc, ← hdata]
  rw [hmessage]
  apply keep_holds habsorbed
  exact hempty.imp_left fun hnil => by
    rw [hnil] at hrest
    rw [hnil]
    exact (List.append_eq_nil_iff.mp hrest.symm).2

end Steps

/-! ### The digest -/

theorem update_buffered (self : Sha256) (byte : UInt8) : (self.update [byte]).buffered = (self.buffered + 1) % 64 := by
  rw [(update_holds (holds_self self) [byte]).buffered_eq, List.length_append, length_pending, List.length_singleton]

/-- The zero bytes that leave room for the length. -/
def padding (self : Sha256) : Sha256 := if self.buffered = 56 then self else padding (self.update [0x00])
termination_by (120 - self.buffered) % 64
decreasing_by
  have hlt := self.buffered_lt
  rw [update_buffered]
  omega

def finalize (self : Sha256) : Digest :=
  let bitLength := self.length * 8
  let self := (self.update [0x80]).padding
  let block := LittleEndian.write self.buffer 56 (Bytes.beBytes 8 bitLength.toNat)
  ⟨bytesOf (compress self.state block), Sha2.output_length _⟩

variable {message : List UInt8} {self : Sha256}

theorem padding_holds {start : Registers UInt32} (h : Holds start self message) : self.padding.buffered = 56 ∧
      Holds start self.padding (message ++ List.replicate ((120 - self.buffered) % 64) 0) := by
  induction self using padding.induct generalizing message with
  | case1 self hroom =>
    have hzeros : (120 - self.buffered) % 64 = 0 := by rw [hroom]
    rw [padding, if_pos hroom, hzeros]
    refine ⟨hroom, ?_⟩
    rwa [List.replicate_zero, List.append_nil]
  | case2 self hroom ih =>
    have hlt := self.buffered_lt
    have hzeros : (120 - self.buffered) % 64 = (120 - (self.update [0]).buffered) % 64 + 1 := by
      rw [update_buffered]
      omega
    obtain ⟨hbuffered, hholds⟩ := ih (update_holds h [0])
    rw [padding, if_neg hroom, hzeros]
    refine ⟨hbuffered, ?_⟩
    rwa [List.append_assoc, List.singleton_append, ← List.replicate_succ] at hholds

/-- The state after the bytes of `message`, from the initial one. -/
def Represents (self : Sha256) (message : List UInt8) : Prop :=
  Holds IV self message ∧ self.length = UInt64.ofNat message.length

theorem represents_init : Represents init [] := ⟨holds_self init, rfl⟩

theorem update_length (self : Sha256) (data : List UInt8) :
    (self.update data).length = self.length + UInt64.ofNat data.length := by
  have hkeep (sha : Sha256) (data : List UInt8) (h : data.length < 64) : (sha.keep data h).length = sha.length := by
    rw [keep]
    split <;> rfl
  have hpush (sha : Sha256) (data : List UInt8) (h : sha.buffered + data.length ≤ 64) :
      (sha.push data h).length = sha.length := by
    unfold push
    dsimp only
    split <;> rfl
  have hfill (sha : Sha256) (data : List UInt8) : (sha.fill data).1.length = sha.length := by
    rw [fill]
    split
    · have hlt := sha.buffered_lt
      exact hpush sha _ (by rw [List.length_take]; omega)
    · rfl
  rw [update, hkeep, hfill]

theorem update_represents (h : Represents self message) (data : List UInt8) :
    Represents (self.update data) (message ++ data) := by
  refine ⟨update_holds h.1 data, ?_⟩
  rw [update_length, h.2, List.length_append, UInt64.ofNat_add]

theorem bitLength_eq (length : ℕ) :
    Bytes.beBytes 8 (UInt64.ofNat length * 8).toNat = Bytes.beBytes 8 (8 * length) := by
  have height : (8 : UInt64).toNat = 8 := rfl
  have hmod : (UInt64.ofNat length * 8).toNat = 8 * length % 256 ^ 8 := by
    rw [UInt64.toNat_mul, UInt64.toNat_ofNat', height]
    omega
  rw [hmod, Bytes.beBytes_mod]

theorem finalize_bytes (h : Represents self message) : self.finalize.bytes = Sha2.sha256 message := by
  obtain ⟨hroom, hashed, hwhole, hpadded, hstate⟩ := padding_holds (update_holds h.1 [0x80])
  have hzeros : (120 - (self.update [0x80]).buffered) % 64 = Sha2.zeros message.length := by
    rw [update_buffered, h.1.buffered_eq, Sha2.zeros]
    omega
  have hbits : Bytes.beBytes 8 (self.length * 8).toNat = Bytes.beBytes 8 (8 * message.length) := by
    rw [h.2, bitLength_eq]
  generalize hpad : (self.update [0x80]).padding = padded at hroom hpadded hstate
  have hblock : LittleEndian.write padded.buffer 56 (Bytes.beBytes 8 (8 * message.length)) =
      padded.pending ++ Bytes.beBytes 8 (8 * message.length) := by
    have hend : padded.buffer.drop 64 = [] := List.drop_of_length_le (le_of_eq padded.length_buffer)
    rw [LittleEndian.write, Bytes.beBytes_length, hend, List.append_nil, pending, hroom]
  have hsize : (padded.pending ++ Bytes.beBytes 8 (8 * message.length)).length = 64 := by
    rw [List.length_append, length_pending, hroom, Bytes.beBytes_length]
  have hmessage : Sha2.pad message = hashed ++ (padded.pending ++ Bytes.beBytes 8 (8 * message.length)) := by
    rw [← List.append_assoc, ← hpadded, hzeros, Sha2.pad, List.append_assoc, List.append_assoc, List.append_assoc]
    rfl
  have hfinal : self.finalize.bytes = bytesOf (compress padded.state (LittleEndian.write padded.buffer 56
      (Bytes.beBytes 8 (self.length * 8).toNat))) := by
    rw [← hpad]
    rfl
  rw [hfinal, hbits, hblock, Sha2.sha256, hmessage, hashBlocks_append _ _ hwhole, hashBlocks_block _ hsize, compress_eq,
    hstate, IV_eq]
  rfl

theorem foldl_update_represents (pieces : List (List UInt8))
    (h : Represents self message) : Represents (pieces.foldl update self) (message ++ pieces.flatten) := by
  induction pieces generalizing self message with
  | nil => rwa [List.flatten_nil, List.append_nil]
  | cons piece pieces ih =>
    have hnext := ih (update_represents h piece)
    rwa [List.append_assoc] at hnext

/-- The digest does not depend on where the message is cut. -/
theorem finalize_pieces (pieces : List (List UInt8)) :
    (pieces.foldl update init).finalize.bytes = Sha2.sha256 pieces.flatten :=
  finalize_bytes (foldl_update_represents pieces represents_init)

end Sha256

def digestBytes (bytes : List UInt8) : Digest := (Sha256.init.update bytes).finalize

theorem digestBytes_bytes (bytes : List UInt8) : (digestBytes bytes).bytes = Sha2.sha256 bytes :=
  Sha256.finalize_bytes (Sha256.update_represents Sha256.represents_init bytes)

end Krusty.Build
