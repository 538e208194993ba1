import RelayLogic.Image
import RelayLogic.Proofs.Reading

/-! Images and the operations they stand for. Whatever follows the bytes of an operation, a reader
takes just these bytes for it, so a whole image is read back as it was written; only the index of a
logical operation, which its byte does not show, is lost. What can be read at all is an image. -/
namespace RelayLogic

namespace Instruction

variable {i : Instruction} {n : Nat}

/-- The accesses stand in the places that their codes say. -/
theorem groups_eq_some_iff : groups[n]? = some i ↔ i.access? ≠ none ∧ i.code = n := by
  constructor
  · intro h
    obtain ⟨inside, rfl⟩ := List.getElem?_eq_some_iff.1 h
    have each : ∀ k : Fin 12, groups[k].access? ≠ none ∧ groups[k].code = k := by decide
    exact each ⟨n, inside⟩
  · rintro ⟨accesses, rfl⟩
    revert accesses
    cases i <;> decide

/-- And so do the logical instructions. -/
theorem logicCodes_eq_some_iff : logicCodes[n]? = some i ↔ i.access? = none ∧ i.code = n := by
  constructor
  · intro h
    obtain ⟨inside, rfl⟩ := List.getElem?_eq_some_iff.1 h
    have each : ∀ k : Fin 3, logicCodes[k].access? = none ∧ logicCodes[k].code = k := by decide
    exact each ⟨n, inside⟩
  · rintro ⟨logical, rfl⟩
    revert logical
    cases i <;> decide

theorem code_lt_logicGroup (i : Instruction) : i.code < logicGroup := by cases i <;> decide

end Instruction

section

variable {high low : Nat}

theorem toNat_packByte (fits : high < 16) (fits' : low < 16) :
    (packByte high low).toNat = high * 16 + low :=
  UInt8.toNat_ofNat_of_lt' (by change high * 16 + low < 256; omega)

theorem packByte_high (fits : high < 16) (fits' : low < 16) :
    (packByte high low).toNat / 16 = high := by
  rw [toNat_packByte fits fits']
  omega

theorem packByte_low (fits : high < 16) (fits' : low < 16) :
    (packByte high low).toNat % 16 = low := by
  rw [toNat_packByte fits fits']
  omega

theorem packByte_split (byte : UInt8) : packByte (byte.toNat / 16) (byte.toNat % 16) = byte := by
  rw [packByte, Nat.div_add_mod']
  exact UInt8.ofNat_toNat

end

namespace Operation

/-- An operation as its image shows it. A logical one has no index there. -/
def shown (op : Operation) : Operation :=
  match op.instruction.access? with
  | none => .logic op.instruction
  | some _ => op

theorem encode_logic {op : Operation} (logical : op.instruction.access? = none) :
    op.encode = .ok [packByte logicGroup op.instruction.code] := by
  simp only [encode, logical]

theorem encode_access {op : Operation} (accesses : op.instruction.access? ≠ none) :
    op.encode =
      if op.argument < extendedArgument then .ok [packByte op.instruction.code op.argument]
      else if op.argument ≤ maxArgument then
        .ok [packByte op.instruction.code extendedArgument,
          UInt8.ofNat (op.argument - extendedArgument)]
      else .error (.argumentOutOfRange op.instruction op.argument) := by
  obtain ⟨a, found⟩ := Option.ne_none_iff_exists'.1 accesses
  simp only [encode, found]

theorem exists_encode_iff {op : Operation} :
    (∃ bytes, op.encode = .ok bytes) ↔
      (op.instruction.access? ≠ none → op.argument ≤ maxArgument) := by
  by_cases logical : op.instruction.access? = none
  · simp [encode_logic logical, logical]
  · rw [encode_access logical]
    have small : extendedArgument ≤ maxArgument := by decide
    split
    · rename_i short
      simp only [Except.ok.injEq, exists_eq', true_iff]
      intro _
      omega
    · split
      · rename_i long
        simp [long]
      · rename_i beyond
        simp [logical, beyond]

end Operation

/-! Reading one operation off the front of some bytes. -/

section

variable {offset n : Nat} {rest : List UInt8} {more : List Operation} {i : Instruction}

theorem decodeFrom_logic (logical : i.access? = none)
    (read : decodeFrom (offset + 1) rest = .ok more) :
    decodeFrom offset (packByte logicGroup i.code :: rest) = .ok (.logic i :: more) := by
  have inside : logicGroup < 16 := by decide
  have small : i.code < 16 := Nat.lt_trans i.code_lt_logicGroup inside
  have found := Instruction.logicCodes_eq_some_iff.2 ⟨logical, rfl⟩
  simp only [decodeFrom, packByte_high inside small, packByte_low inside small, if_true, found,
    read]
  rfl

theorem decodeFrom_short (accesses : i.access? ≠ none) (short : n < extendedArgument)
    (read : decodeFrom (offset + 1) rest = .ok more) :
    decodeFrom offset (packByte i.code n :: rest) = .ok (⟨i, n⟩ :: more) := by
  have inside : i.code < 16 := Nat.lt_trans i.code_lt_logicGroup (by decide)
  have small : n < 16 := Nat.lt_succ_of_lt short
  have found := Instruction.groups_eq_some_iff.2 ⟨accesses, rfl⟩
  simp only [decodeFrom, packByte_high inside small, packByte_low inside small,
    Nat.ne_of_lt i.code_lt_logicGroup, if_false, found, Nat.ne_of_lt short, read]
  rfl

theorem decodeFrom_long (accesses : i.access? ≠ none) (extension : UInt8)
    (read : decodeFrom (offset + 2) rest = .ok more) :
    decodeFrom offset (packByte i.code extendedArgument :: extension :: rest) =
      .ok (⟨i, extendedArgument + extension.toNat⟩ :: more) := by
  have inside : i.code < 16 := Nat.lt_trans i.code_lt_logicGroup (by decide)
  have small : extendedArgument < 16 := by decide
  have found := Instruction.groups_eq_some_iff.2 ⟨accesses, rfl⟩
  simp only [decodeFrom, packByte_high inside small, packByte_low inside small,
    Nat.ne_of_lt i.code_lt_logicGroup, if_false, if_true, found, read]
  rfl

end

/-- The bytes of an operation are read as that operation, whatever follows them. -/
theorem decodeFrom_append {op : Operation} {bytes rest : List UInt8} {more : List Operation}
    {offset : Nat} (encoded : op.encode = .ok bytes)
    (read : decodeFrom (offset + bytes.length) rest = .ok more) :
    decodeFrom offset (bytes ++ rest) = .ok (op.shown :: more) := by
  by_cases logical : op.instruction.access? = none
  · have shown : op.shown = .logic op.instruction := by simp only [Operation.shown, logical]
    rw [Operation.encode_logic logical] at encoded
    cases encoded
    rw [shown]
    exact decodeFrom_logic logical read
  · have shown : op.shown = op := by
      obtain ⟨a, found⟩ := Option.ne_none_iff_exists'.1 logical
      simp only [Operation.shown, found]
    rw [Operation.encode_access logical] at encoded
    rw [shown]
    split at encoded
    · rename_i short
      cases encoded
      exact decodeFrom_short logical short read
    · split at encoded
      · rename_i fits
        cases encoded
        have same : extendedArgument + (UInt8.ofNat (op.argument - extendedArgument)).toNat =
            op.argument := by
          rw [UInt8.toNat_ofNat_of_lt' (by change _ < 256; unfold maxArgument at fits; omega)]
          omega
        have read' := decodeFrom_long logical (UInt8.ofNat (op.argument - extendedArgument)) read
        rwa [same] at read'
      · cases encoded

theorem encode_cons_eq_ok {op : Operation} {ops : List Operation} {bytes : List UInt8} :
    encode (op :: ops) = .ok bytes ↔
      ∃ first rest, op.encode = .ok first ∧ encode ops = .ok rest ∧ bytes = first ++ rest := by
  simp only [encode, bind_eq_ok]
  constructor
  · rintro ⟨first, here, rest, later, same⟩
    cases same
    exact ⟨first, rest, here, later, rfl⟩
  · rintro ⟨first, rest, here, later, rfl⟩
    exact ⟨first, here, rest, later, rfl⟩

theorem exists_encode_iff {ops : List Operation} :
    (∃ bytes, encode ops = .ok bytes) ↔
      ∀ op ∈ ops, op.instruction.access? ≠ none → op.argument ≤ maxArgument := by
  induction ops with
  | nil => simp [encode]
  | cons op ops ih =>
      rw [List.forall_mem_cons, ← ih, ← Operation.exists_encode_iff]
      constructor
      · rintro ⟨bytes, encoded⟩
        obtain ⟨first, rest, here, later, -⟩ := encode_cons_eq_ok.1 encoded
        exact ⟨⟨first, here⟩, rest, later⟩
      · rintro ⟨⟨first, here⟩, rest, later⟩
        exact ⟨first ++ rest, encode_cons_eq_ok.2 ⟨first, rest, here, later, rfl⟩⟩

theorem decodeFrom_encode {ops : List Operation} {bytes : List UInt8} (offset : Nat)
    (encoded : encode ops = .ok bytes) :
    decodeFrom offset bytes = .ok (ops.map Operation.shown) := by
  induction ops generalizing offset bytes with
  | nil =>
      cases encoded
      rfl
  | cons op ops ih =>
      obtain ⟨first, rest, here, later, rfl⟩ := encode_cons_eq_ok.1 encoded
      exact decodeFrom_append here (ih _ later)

/-- Whatever can be read is the image of what is read. -/
theorem encode_of_decodeFrom {offset : Nat} {bytes : List UInt8} {ops : List Operation}
    (read : decodeFrom offset bytes = .ok ops) : encode ops = .ok bytes := by
  fun_induction decodeFrom offset bytes generalizing ops with
  | case1 =>
      cases read
      rfl
  | case2 | case4 | case5 => cases read
  | case3 offset byte rest group low logic i found =>
      rename_i ih
      obtain ⟨more, later, same⟩ := bind_eq_ok.1 read
      cases same
      obtain ⟨logical, code⟩ := Instruction.logicCodes_eq_some_iff.1 found
      refine encode_cons_eq_ok.2 ⟨_, rest, Operation.encode_logic logical, ih later, ?_⟩
      have same : packByte logicGroup i.code = byte := by
        rw [← logic, code]
        exact packByte_split byte
      exact congrArg (· :: rest) same.symm
  | case6 offset byte group low access i found long extension rest =>
      rename_i ih
      obtain ⟨more, later, same⟩ := bind_eq_ok.1 read
      cases same
      obtain ⟨accesses, code⟩ := Instruction.groups_eq_some_iff.1 found
      have small := extension.toNat_lt
      have encoded : Operation.encode ⟨i, extendedArgument + extension.toNat⟩ =
          .ok [byte, extension] := by
        have beyond : ¬extendedArgument + extension.toNat < extendedArgument := by omega
        have fits : extendedArgument + extension.toNat ≤ maxArgument := by
          unfold maxArgument
          omega
        have same : packByte i.code extendedArgument = byte := by
          rw [← long, code]
          exact packByte_split byte
        rw [Operation.encode_access accesses, if_neg beyond, if_pos fits, same,
          Nat.add_sub_cancel_left, UInt8.ofNat_toNat]
      exact encode_cons_eq_ok.2 ⟨_, rest, encoded, ih later, rfl⟩
  | case7 offset byte rest group low access i found short =>
      rename_i ih
      obtain ⟨more, later, same⟩ := bind_eq_ok.1 read
      cases same
      obtain ⟨accesses, code⟩ := Instruction.groups_eq_some_iff.1 found
      have encoded : Operation.encode ⟨i, low⟩ = .ok [byte] := by
        have inside : low < 16 := Nat.mod_lt _ (by decide)
        have less : low < extendedArgument := Nat.lt_of_le_of_ne (Nat.le_of_lt_succ inside) short
        have same : packByte i.code low = byte := by
          rw [code]
          exact packByte_split byte
        rw [Operation.encode_access accesses, if_pos less, same]
      exact encode_cons_eq_ok.2 ⟨_, rest, encoded, ih later, rfl⟩

/-- Writing operations and reading images undo each other. Operations have an image if no access
has an index above 270, and it is read as these operations, the logical ones without an index. What
can be read is the image of what is read, so nothing but images can be read, and no two of them are
read alike. -/
theorem decode_inverts_encode :
    (∀ ops : List Operation, (∃ bytes, encode ops = .ok bytes) ↔
      ∀ op ∈ ops, op.instruction.access? ≠ none → op.argument ≤ 270) ∧
    (∀ ops bytes, encode ops = .ok bytes → decode bytes = .ok (ops.map Operation.shown)) ∧
    (∀ bytes ops, decode bytes = .ok ops → encode ops = .ok bytes) ∧
    (∀ bytes, (∃ ops, decode bytes = .ok ops) ↔ ∃ ops, encode ops = .ok bytes) ∧
    ∀ bytes bytes' ops, decode bytes = .ok ops → decode bytes' = .ok ops → bytes = bytes' := by
  refine ⟨fun ops => exists_encode_iff, fun ops bytes => decodeFrom_encode 0,
    fun bytes ops => encode_of_decodeFrom, fun bytes => ⟨?_, ?_⟩, fun bytes bytes' ops read read' => ?_⟩
  · rintro ⟨ops, read⟩
    exact ⟨ops, encode_of_decodeFrom read⟩
  · rintro ⟨ops, encoded⟩
    exact ⟨_, decodeFrom_encode 0 encoded⟩
  · exact Except.ok.inj ((encode_of_decodeFrom read).symm.trans (encode_of_decodeFrom read'))

/-- The last index in one byte and both ends of those in two. The index of the logical operation is
lost. -/
example :
    encode [⟨.readInput, 14⟩, ⟨.not, 300⟩, ⟨.writeFlag, 15⟩, ⟨.resetTimer, 270⟩] =
        .ok [0x3E, 0xC0, 0x5F, 0, 0xBF, 255] ∧
      decode [0x3E, 0xC0, 0x5F, 0, 0xBF, 255] =
        .ok [⟨.readInput, 14⟩, ⟨.not, 0⟩, ⟨.writeFlag, 15⟩, ⟨.resetTimer, 270⟩] :=
  ⟨rfl, by cbv⟩

end RelayLogic
