import Krusty.Metadata.Framing

/-! Messages written field by field, what the decoders read back from them, and `canonical` as a stable sort
of their fields. -/
namespace Krusty.Metadata

open Decode

/-! ## Rows of fields -/

/-- The bytes of a field and the field they stand for. -/
structure Frame where
  code : List UInt8
  field : UInt64 × Decode.Pb.Value
  framed : Framed code field

/-- The fields of a row in the order `canonical` puts them. -/
def byNumber (a b : UInt64 × Decode.Pb.Value) : Bool := a.1 ≤ b.1

/-- The bytes of a row of fields. -/
def rowBytes (frames : List Frame) : List UInt8 := frames.flatMap (·.code)

section Rows

variable {frames : List Frame}

theorem length_le_rowBytes (frames : List Frame) : frames.length ≤ (rowBytes frames).length := by
  unfold rowBytes
  induction frames with
  | nil => exact le_refl _
  | cons frame frames ih =>
    have hpos := List.length_pos_iff.mpr frame.framed.ne_nil
    rw [List.flatMap_cons, List.length_append, List.length_cons]
    omega

theorem fields_row {p : Decode.Pb} (h : At p (rowBytes frames)) {fuel : ℕ} (hfuel : frames.length ≤ fuel) :
    p.fields fuel = some (frames.map (·.field)) := by
  induction frames generalizing p fuel with
  | nil =>
    have hend : p.atEnd = true := by
      have hdrop : p.b.length ≤ p.i := List.drop_eq_nil_iff.mp h.drop
      simpa [Decode.Pb.atEnd] using hdrop
    unfold Decode.Pb.fields
    rw [if_pos hend]
    rfl
  | cons frame frames ih =>
    obtain ⟨fuel, rfl⟩ : ∃ n, fuel = n + 1 := Nat.exists_eq_succ_of_ne_zero (by rw [List.length_cons] at hfuel; omega)
    have hrow : At p (frame.code ++ rowBytes frames) := h
    have hmore : ¬ p.atEnd = true := by
      have hpos := List.length_pos_iff.mpr frame.framed.ne_nil
      have hle := hrow.forward.le
      unfold Decode.Pb.forward at hle
      simp only [Decode.Pb.atEnd, decide_eq_true_eq]
      dsimp only at hle
      omega
    unfold Decode.Pb.fields
    rw [if_neg hmore]
    simp only [frame.framed.read p _ hrow, Option.bind_eq_bind, Option.bind_some]
    rw [ih hrow.forward (by simpa using hfuel)]
    rfl

theorem message_row (hfits : (rowBytes frames).length < 2 ^ 64) :
    message (rowBytes frames) = some (frames.map (·.field)) :=
  fields_row ⟨rfl, Nat.zero_le _, hfits⟩ (length_le_rowBytes frames)

theorem split_row {fuel : ℕ} (hfuel : frames.length ≤ fuel) :
    Protobuf.Pb.fields fuel (rowBytes frames) = some (frames.map fun f => (f.field.1, f.code)) := by
  induction frames generalizing fuel with
  | nil =>
    unfold Protobuf.Pb.fields
    rfl
  | cons frame frames ih =>
    obtain ⟨fuel, rfl⟩ : ∃ n, fuel = n + 1 := Nat.exists_eq_succ_of_ne_zero (by rw [List.length_cons] at hfuel; omega)
    obtain ⟨tag, htag, hnext⟩ := frame.framed.split (rowBytes frames)
    have hrow : rowBytes (frame :: frames) = frame.code ++ rowBytes frames := rfl
    have hcode : (frame.code ++ rowBytes frames).take
        ((frame.code ++ rowBytes frames).length - (rowBytes frames).length) = frame.code := by
      rw [List.length_append, Nat.add_sub_cancel, List.take_left]
    obtain ⟨b, bytes, hcons⟩ := List.exists_cons_of_ne_nil
      (List.append_ne_nil_of_left_ne_nil frame.framed.ne_nil (rowBytes frames))
    rw [hrow, hcons, Protobuf.Pb.fields, ← hcons, hnext]
    · simp only [Option.bind_eq_bind, Option.bind_some]
      rw [ih (by simpa using hfuel), hcode, htag]
      rfl
    · simp

/-- The row with its fields in field-number order. -/
def sortRow (frames : List Frame) : List Frame := frames.mergeSort fun a b => byNumber a.field b.field

theorem canonical_row : Protobuf.Pb.canonical { buf := rowBytes frames } =
    some { buf := rowBytes (sortRow frames) } := by
  have hsort : (frames.map fun f => (f.field.1, f.code)).mergeSort (fun a b => a.1 ≤ b.1) =
      (sortRow frames).map fun f => (f.field.1, f.code) :=
    (List.map_mergeSort (f := fun f : Frame => (f.field.1, f.code)) fun _ _ _ _ => rfl).symm
  unfold Protobuf.Pb.canonical
  simp only [split_row (length_le_rowBytes frames), Option.bind_eq_bind, Option.bind_some]
  rw [hsort, List.flatMap_map]
  rfl

theorem byNumber_trans (a b c : UInt64 × Decode.Pb.Value) (hab : byNumber a b) (hbc : byNumber b c) :
    byNumber a c := by
  simp only [byNumber, decide_eq_true_eq] at *
  exact UInt64.le_trans hab hbc

theorem byNumber_total (a b : UInt64 × Decode.Pb.Value) : byNumber a b || byNumber b a := by
  simp only [byNumber, Bool.or_eq_true, decide_eq_true_eq]
  exact UInt64.le_total a.1 b.1

theorem sortRow_sortRow : sortRow (sortRow frames) = sortRow frames :=
  List.mergeSort_of_pairwise (List.pairwise_mergeSort (fun a b c => byNumber_trans a.field b.field c.field)
    (fun a b => byNumber_total a.field b.field) frames)

theorem sortRow_fields : (sortRow frames).map (·.field) = (frames.map (·.field)).mergeSort byNumber :=
  List.map_mergeSort fun _ _ _ _ => rfl

/-- Sorting by number keeps the order of the fields of one number. -/
theorem filter_mergeSort_byNumber (fields : List (UInt64 × Decode.Pb.Value)) (number : UInt64) :
    (fields.mergeSort byNumber).filter (·.1 = number) = fields.filter (·.1 = number) := by
  have hperm := (List.mergeSort_perm fields byNumber).filter (·.1 = number)
  have hpairwise : (fields.filter (·.1 = number)).Pairwise fun a b => byNumber a b := by
    apply List.pairwise_of_forall_mem_list
    intro a ha b hb
    have ha' : a.1 = number := by simpa using (List.mem_filter.mp ha).2
    have hb' : b.1 = number := by simpa using (List.mem_filter.mp hb).2
    simp [byNumber, ha', hb']
  have hsub : (fields.filter (·.1 = number)).Sublist (fields.mergeSort byNumber) :=
    List.sublist_mergeSort byNumber_trans byNumber_total hpairwise List.filter_sublist
  have hsub' := hsub.filter (·.1 = number)
  rw [List.filter_filter] at hsub'
  simp only [Bool.and_self] at hsub'
  exact (hsub'.eq_of_length hperm.length_eq.symm).symm

end Rows

/-! ## Packed numbers -/

theorem foldl_varint_buf (values : List UInt64) (p : Protobuf.Pb) :
    (values.foldl Protobuf.Pb.varint p).buf = p.buf ++ values.flatMap fun v => Varint.encode v.toNat := by
  induction values generalizing p with
  | nil => simp
  | cons v values ih =>
    rw [List.foldl_cons, ih, List.flatMap_cons]
    simp [Protobuf.Pb.varint, Protobuf.Pb.varintBytes_eq]

theorem varints_encode {values : List UInt64} {p : Decode.Pb}
    (h : At p (values.flatMap fun v => Varint.encode v.toNat)) {fuel : ℕ} (hfuel : values.length ≤ fuel) :
    p.varints fuel = some values := by
  induction values generalizing p fuel with
  | nil =>
    have hdrop : p.b.length ≤ p.i := List.drop_eq_nil_iff.mp h.drop
    unfold Decode.Pb.varints
    rw [if_pos (by simpa [Decode.Pb.atEnd] using hdrop)]
  | cons v values ih =>
    obtain ⟨fuel, rfl⟩ : ∃ n, fuel = n + 1 :=
      Nat.exists_eq_succ_of_ne_zero (by rw [List.length_cons] at hfuel; omega)
    rw [List.flatMap_cons] at h
    have hmore : ¬ p.atEnd = true := by
      have hpos := List.length_pos_iff.mpr (Varint.encode_ne_nil v.toNat)
      have hle := h.forward.le
      unfold Decode.Pb.forward at hle
      simp only [Decode.Pb.atEnd, decide_eq_true_eq]
      dsimp only at hle
      omega
    unfold Decode.Pb.varints
    rw [if_neg hmore]
    simp only [h.varint, Option.bind_eq_bind, Option.bind_some]
    rw [ih h.forward (by simpa using hfuel)]
    rfl

theorem packedVarints_encode {values : List UInt64}
    (hfits : (values.flatMap fun v => Varint.encode v.toNat).length < 2 ^ 64) :
    packedVarints (values.flatMap fun v => Varint.encode v.toNat) = some values := by
  refine varints_encode ⟨rfl, Nat.zero_le _, hfits⟩ ?_
  have hle : ∀ vs : List UInt64, vs.length ≤ (vs.flatMap fun v => Varint.encode v.toNat).length := by
    intro vs
    induction vs with
    | nil => exact le_refl _
    | cons v vs ih =>
      have hpos := List.length_pos_iff.mpr (Varint.encode_ne_nil v.toNat)
      rw [List.flatMap_cons, List.length_append, List.length_cons]
      omega
  exact hle values

/-! ## Writes -/

open Protobuf (Write runAll)

/-- The bytes of a length-delimited field whose value has `n` of them. -/
def delimitedSize (field : UInt32) (n : ℕ) : ℕ :=
  (Varint.encode (tagOf field 2).toNat).length + ((Varint.encode n).length + n)

mutual

/-- The number of bytes that a write appends. -/
def Protobuf.Write.size : Write → ℕ
  | .varint field v => (Varint.encode (tagOf field 0).toNat).length + (Varint.encode v.toNat).length
  | .fixed32 field _ => (Varint.encode (tagOf field 5).toNat).length + 4
  | .fixed64 field _ => (Varint.encode (tagOf field 1).toNat).length + 8
  | .bytes field b => delimitedSize field b.length
  | .packedVarints field values =>
    if values = [] then 0
    else delimitedSize field (values.flatMap fun v => Varint.encode v.toNat).length
  | .message field writes => delimitedSize field (sizeAll writes)

def sizeAll : List Write → ℕ
  | [] => 0
  | write :: writes => write.size + sizeAll writes

end

/-- What is read back for a write: its field number and value, nothing for an empty packed list; a packed
list reads back its numbers, and a message what its own writes read back, stably sorted by number. -/
inductive Recovers : Write → List (UInt64 × Decode.Pb.Value) → Prop
  | varint (field : UInt32) (v : UInt64) : Recovers (.varint field v) [(field.toUInt64, .varint v)]
  | fixed32 (field : UInt32) (v : UInt32) :
    Recovers (.fixed32 field v) [(field.toUInt64, .fixed32 (Bytes.beBytes 4 v.toNat).reverse)]
  | fixed64 (field : UInt32) (v : UInt64) :
    Recovers (.fixed64 field v) [(field.toUInt64, .fixed64 (Bytes.beBytes 8 v.toNat).reverse)]
  | bytes (field : UInt32) (b : List UInt8) : Recovers (.bytes field b) [(field.toUInt64, .bytes b)]
  | packedNothing (field : UInt32) : Recovers (.packedVarints field []) []
  | packed (field : UInt32) {values : List UInt64} (hne : values ≠ []) {payload : List UInt8}
    (h : packedVarints payload = some values) :
    Recovers (.packedVarints field values) [(field.toUInt64, .bytes payload)]
  | message (field : UInt32) {writes : List Write} {parts : List (List (UInt64 × Decode.Pb.Value))}
    (hparts : List.Forall₂ Recovers writes parts) {payload : List UInt8}
    (h : message payload = some (parts.flatten.mergeSort byNumber)) :
    Recovers (.message field writes) [(field.toUInt64, .bytes payload)]

/-- What a write does to any message: it appends a row of fields. -/
structure Appends (run : Protobuf.Pb → Option Protobuf.Pb) (frames : List Frame) (size : ℕ) : Prop where
  run_eq : ∀ p, run p = some { buf := p.buf ++ rowBytes frames }
  length_eq : (rowBytes frames).length = size

theorem rowBytes_singleton (frame : Frame) : rowBytes [frame] = frame.code := by
  simp [rowBytes]

theorem tag_eq (p : Protobuf.Pb) (field : UInt32) (wire : UInt8) :
    p.tag field wire = { buf := p.buf ++ Varint.encode (tagOf field wire).toNat } := by
  unfold Protobuf.Pb.tag Protobuf.Pb.varint
  rw [Protobuf.Pb.varintBytes_eq]
  rfl

theorem fieldBytes_eq (p : Protobuf.Pb) (field : UInt32) (b : List UInt8) : p.fieldBytes field b =
    { buf := p.buf ++ (Varint.encode (tagOf field 2).toNat ++
      (Varint.encode (UInt64.ofNat b.length).toNat ++ b)) } := by
  unfold Protobuf.Pb.fieldBytes Protobuf.Pb.extend Protobuf.Pb.varint
  rw [tag_eq, Protobuf.Pb.varintBytes_eq]
  simp only [List.append_assoc]

/-- A length-delimited field of a value that an allocation can hold. -/
theorem appends_bytes (field : UInt32) {b : List UInt8} (hb : b.length < 2 ^ 64) :
    ∃ frame : Frame, frame.field = (field.toUInt64, .bytes b) ∧
      Appends (fun p => some (p.fieldBytes field b)) [frame] (delimitedSize field b.length) := by
  refine ⟨⟨_, _, framed_bytes hb⟩, rfl, fun p => ?_, ?_⟩
  · rw [fieldBytes_eq, rowBytes_singleton]
  · rw [rowBytes_singleton, List.length_append, List.length_append, UInt64.toNat_ofNat',
      Nat.mod_eq_of_lt hb]
    rfl

theorem size_le_delimitedSize (field : UInt32) (n : ℕ) : n ≤ delimitedSize field n := by
  unfold delimitedSize
  omega

theorem sortRow_length (frames : List Frame) :
    (rowBytes (sortRow frames)).length = (rowBytes frames).length :=
  ((List.mergeSort_perm frames _).flatMap_right _).length_eq

mutual

theorem write_appends : ∀ write : Write, write.size < 2 ^ 64 →
    ∃ frames : List Frame, Appends write.run frames write.size ∧ Recovers write (frames.map (·.field))
  | .varint field v, _ => by
    refine ⟨[⟨_, _, framed_varint v⟩], ⟨fun p => ?_, ?_⟩, .varint field v⟩
    · unfold Write.run Protobuf.Pb.fieldVarint Protobuf.Pb.varint
      rw [tag_eq, Protobuf.Pb.varintBytes_eq, rowBytes_singleton]
      simp only [List.append_assoc]
    · rw [rowBytes_singleton, List.length_append]
      unfold Write.size
      rfl
  | .fixed32 field v, _ => by
    refine ⟨[⟨_, _, framed_fixed32 (b := (Bytes.beBytes 4 v.toNat).reverse) (by simp)⟩],
      ⟨fun p => ?_, ?_⟩, .fixed32 field v⟩
    · unfold Write.run Protobuf.Pb.fieldFixed32 Protobuf.Pb.extend
      rw [tag_eq, rowBytes_singleton]
      simp only [List.append_assoc]
    · rw [rowBytes_singleton, List.length_append, List.length_reverse, Bytes.beBytes_length]
      unfold Write.size
      rfl
  | .fixed64 field v, _ => by
    refine ⟨[⟨_, _, framed_fixed64 (b := (Bytes.beBytes 8 v.toNat).reverse) (by simp)⟩],
      ⟨fun p => ?_, ?_⟩, .fixed64 field v⟩
    · unfold Write.run Protobuf.Pb.fieldFixed64 Protobuf.Pb.extend
      rw [tag_eq, rowBytes_singleton]
      simp only [List.append_assoc]
    · rw [rowBytes_singleton, List.length_append, List.length_reverse, Bytes.beBytes_length]
      unfold Write.size
      rfl
  | .bytes field b, hsize => by
    unfold Write.size at hsize
    have hle := size_le_delimitedSize field b.length
    obtain ⟨frame, hfield, happends⟩ := appends_bytes field (b := b) (by omega)
    refine ⟨[frame], ?_, ?_⟩
    · unfold Write.size
      exact ⟨fun p => by unfold Write.run; exact happends.run_eq p, happends.length_eq⟩
    · rw [List.map_singleton, hfield]
      exact .bytes field b
  | .packedVarints field values, hsize => by
    unfold Write.size at hsize ⊢
    by_cases hempty : values = []
    · subst hempty
      refine ⟨[], ⟨fun p => ?_, rfl⟩, .packedNothing field⟩
      unfold Write.run Protobuf.Pb.fieldPackedVarints
      rw [if_pos rfl]
      simp [rowBytes]
    · rw [if_neg hempty] at hsize ⊢
      have hle := size_le_delimitedSize field (values.flatMap fun v => Varint.encode v.toNat).length
      obtain ⟨frame, hfield, happends⟩ :=
        appends_bytes field (b := values.flatMap fun v => Varint.encode v.toNat) (by omega)
      refine ⟨[frame], ⟨fun p => ?_, happends.length_eq⟩, ?_⟩
      · unfold Write.run Protobuf.Pb.fieldPackedVarints
        rw [if_neg hempty, ← happends.run_eq p]
        simp [foldl_varint_buf, Protobuf.Pb.new]
      · rw [List.map_singleton, hfield]
        exact .packed field hempty (packedVarints_encode (by omega))
  | .message field writes, hsize => by
    unfold Write.size at hsize ⊢
    have hle := size_le_delimitedSize field (sizeAll writes)
    obtain ⟨rows, hrows, hrecovers⟩ := writes_append writes (by omega)
    have hlength : (rowBytes (sortRow rows.flatten)).length = sizeAll writes := by
      rw [sortRow_length, hrows.length_eq]
    obtain ⟨frame, hfield, happends⟩ := appends_bytes field (b := rowBytes (sortRow rows.flatten)) (by omega)
    rw [hlength] at happends
    refine ⟨[frame], ⟨fun p => ?_, happends.length_eq⟩, ?_⟩
    · have hinner := hrows.run_eq Protobuf.Pb.new
      simp only [Protobuf.Pb.new, List.nil_append] at hinner
      rw [← happends.run_eq p]
      unfold Write.run Protobuf.Pb.new
      simp only [hinner, Option.bind_eq_bind, Option.bind_some, Protobuf.Pb.fieldMessage, canonical_row]
      rfl
    · rw [List.map_singleton, hfield]
      refine .message field hrecovers ?_
      rw [message_row (by omega), sortRow_fields, List.map_flatten]

theorem writes_append : ∀ writes : List Write, sizeAll writes < 2 ^ 64 →
    ∃ rows : List (List Frame), Appends (fun p => runAll p writes) rows.flatten (sizeAll writes) ∧
      List.Forall₂ Recovers writes (rows.map (List.map (·.field)))
  | [], _ => by
    refine ⟨[], ⟨fun p => ?_, ?_⟩, .nil⟩
    · simp [runAll, rowBytes]
    · simp [rowBytes, sizeAll]
  | write :: writes, hsize => by
    unfold sizeAll at hsize ⊢
    obtain ⟨frames, happends, hrecovers⟩ := write_appends write (by omega)
    obtain ⟨rows, hrows, hall⟩ := writes_append writes (by omega)
    refine ⟨frames :: rows, ⟨fun p => ?_, ?_⟩, .cons hrecovers hall⟩
    · have hrest := hrows.run_eq { buf := p.buf ++ rowBytes frames }
      simp only at hrest
      simp only [runAll, happends.run_eq p, Option.bind_eq_bind, Option.bind_some, hrest]
      simp [rowBytes]
    · have h₁ := happends.length_eq
      have h₂ := hrows.length_eq
      unfold rowBytes at h₁ h₂ ⊢
      rw [List.flatten_cons, List.flatMap_append, List.length_append]
      omega

end

theorem Recovers.length_le {write : Write} {fields : List (UInt64 × Decode.Pb.Value)}
    (h : Recovers write fields) : fields.length ≤ 1 := by
  cases h <;> simp

/-- A field passed over by its tag and `skip`, whatever stands before and after it. -/
theorem skip_write (write : Write) (front rest : List UInt8)
    (hfits : front.length + write.size + rest.length < 2 ^ 64) :
    ∃ code, write.run { buf := front } = some { buf := front ++ code } ∧
      (code ≠ [] → ∃ tag p, Decode.Pb.varint { b := front ++ code ++ rest, i := front.length } = some (tag, p) ∧
        p.skip (tag &&& 7) = some { b := front ++ code ++ rest, i := front.length + code.length }) := by
  obtain ⟨frames, happends, hrecovers⟩ := write_appends write (by omega)
  refine ⟨rowBytes frames, happends.run_eq _, fun hne => ?_⟩
  have hone := hrecovers.length_le
  match frames with
  | [] => exact absurd rfl hne
  | [frame] =>
    have hlength := happends.length_eq
    rw [rowBytes_singleton] at hlength ⊢
    refine frame.framed.skip _ rest ⟨?_, ?_, ?_⟩
    · simp
    · simp only [List.length_append]
      omega
    · simp only [List.length_append]
      omega
  | _ :: _ :: _ => simp at hone

/-- Writing and reading agree. The decoders read back what was written, in order; a skipped field is passed
over exactly; and `canonical` sorts the fields by number, stably: once is enough, and the decoders see the
same fields of every number, in the same order. -/
theorem write_read (writes : List Write) (hfits : sizeAll writes < 2 ^ 64) :
    ∃ p parts, runAll .new writes = some p ∧ List.Forall₂ Recovers writes parts ∧
      message p.buf = some parts.flatten ∧
      (∀ write ∈ writes, ∀ front rest : List UInt8, front.length + write.size + rest.length < 2 ^ 64 →
        ∃ code, write.run { buf := front } = some { buf := front ++ code } ∧
        (code ≠ [] →
          ∃ tag c, Decode.Pb.varint { b := front ++ code ++ rest, i := front.length } = some (tag, c) ∧
            c.skip (tag &&& 7) = some { b := front ++ code ++ rest, i := front.length + code.length })) ∧
      (∀ (c : Decode.Pb) (wire : UInt64), c.skip wire = (c.value wire).map (·.2)) ∧
      ∃ q sorted, p.canonical = some q ∧ q.canonical = some q ∧ message q.buf = some sorted ∧
        sorted.Pairwise (fun a b => a.1 ≤ b.1) ∧ sorted.Perm parts.flatten ∧
        ∀ number, sorted.filter (·.1 = number) = parts.flatten.filter (·.1 = number) := by
  obtain ⟨rows, hrows, hrecovers⟩ := writes_append writes hfits
  have hrow : (rowBytes rows.flatten).length < 2 ^ 64 := hrows.length_eq ▸ hfits
  have hsorted : (rowBytes (sortRow rows.flatten)).length < 2 ^ 64 := by rwa [sortRow_length]
  refine ⟨{ buf := rowBytes rows.flatten }, rows.map (List.map (·.field)), hrows.run_eq .new, hrecovers, ?_,
    fun write _ front rest => skip_write write front rest, Decode.Pb.skip_eq,
    { buf := rowBytes (sortRow rows.flatten) }, (rows.map (List.map (·.field))).flatten.mergeSort byNumber,
    canonical_row, ?_, ?_, ?_, List.mergeSort_perm _ _, filter_mergeSort_byNumber _⟩
  · rw [message_row hrow, List.map_flatten]
  · rw [canonical_row, sortRow_sortRow]
  · rw [message_row hsorted, sortRow_fields, List.map_flatten]
  · refine (List.pairwise_mergeSort byNumber_trans byNumber_total _).imp fun h => ?_
    simpa [byNumber] using h

theorem write_read_sample : ∃ p parts,
    runAll .new [.varint 4 2, .message 2 [.varint 6 1, .varint 1 1], .packedVarints 1 [300]] = some p ∧
    List.Forall₂ Recovers [.varint 4 2, .message 2 [.varint 6 1, .varint 1 1], .packedVarints 1 [300]] parts ∧
    message p.buf = some parts.flatten := by
  have hsize : sizeAll [.varint 4 2, .message 2 [.varint 6 1, .varint 1 1], .packedVarints 1 [300]] < 2 ^ 64 := by
    decide +kernel
  obtain ⟨p, parts, hrun, hrecovers, hread, -⟩ := write_read _ hsize
  exact ⟨p, parts, hrun, hrecovers, hread⟩

end Krusty.Metadata
