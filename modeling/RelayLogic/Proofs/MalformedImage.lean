import RelayLogic.Proofs.Image

/-! Bytes that are no image. Reading stops at the first place where no operation begins, and names
it. What stands before that place is an image, and what stands behind it has no say; only an
operation of which the second byte is missing is completed by any further byte. -/
namespace RelayLogic

/-- `Defect offset rest e`: at the front of these bytes, which stand at an offset, there is no
operation. -/
inductive Defect (offset : Nat) : List UInt8 → DecodeError → Prop
  | unknownGroup {byte : UInt8} (rest : List UInt8) : logicGroup < byte.toNat / 16 →
      Defect offset (byte :: rest) (.unknownGroup (byte.toNat / 16) offset)
  | unknownLogic {byte : UInt8} (rest : List UInt8) : byte.toNat / 16 = logicGroup →
      3 ≤ byte.toNat % 16 → Defect offset (byte :: rest) (.unknownLogic (byte.toNat % 16) offset)
  | truncated {byte : UInt8} : byte.toNat / 16 < logicGroup →
      byte.toNat % 16 = extendedArgument → Defect offset [byte] (.truncated (offset + 1))

/-- `Breaks offset bytes e`: the bytes, which stand at an offset, can be read up to a defect. -/
inductive Breaks (offset : Nat) : List UInt8 → DecodeError → Prop
  | intro {front rest : List UInt8} {ops : List Operation} {e : DecodeError} :
      decodeFrom offset front = .ok ops → Defect (offset + front.length) rest e →
      Breaks offset (front ++ rest) e

/-- Bytes that can be read as operations. -/
def IsImage (bytes : List UInt8) : Prop := ∃ ops, decode bytes = .ok ops

/-- What an error says of the bytes that it is reported for. -/
def DecodeError.Describes : DecodeError → List UInt8 → Prop
  | unknownGroup group offset, bytes => IsImage (bytes.take offset) ∧
      ∃ byte, bytes[offset]? = some byte ∧ byte.toNat / 16 = group ∧ group ∈ [0xD, 0xE, 0xF]
  | unknownLogic code offset, bytes => IsImage (bytes.take offset) ∧
      ∃ byte, bytes[offset]? = some byte ∧ byte.toNat = 0xC0 + code ∧ 3 ≤ code ∧ code ≤ 0xF
  | truncated offset, bytes => offset = bytes.length ∧ IsImage bytes.dropLast ∧
      ∃ byte, bytes.getLast? = some byte ∧ byte.toNat / 16 < 0xC ∧ byte.toNat % 16 = 0xF

/-- What an error says of all bytes that begin like those that it is reported for. An operation is
completed by its second byte; any other defect stays. -/
def DecodeError.Foretells : DecodeError → List UInt8 → Prop
  | unknownGroup group offset, bytes => ∀ longer, bytes.take (offset + 1) <+: longer →
      decode longer = .error (unknownGroup group offset)
  | unknownLogic code offset, bytes => ∀ longer, bytes.take (offset + 1) <+: longer →
      decode longer = .error (unknownLogic code offset)
  | truncated _, bytes => ∀ ops, decode bytes.dropLast = .ok ops → ∀ byte, ∃ op,
      decode (bytes ++ [byte]) = .ok (ops ++ [op])

theorem Instruction.groups_eq_none_iff {n : Nat} : groups[n]? = none ↔ logicGroup ≤ n :=
  List.getElem?_eq_none_iff

theorem Instruction.exists_group {n : Nat} (access : n < logicGroup) :
    ∃ i, groups[n]? = some i :=
  ⟨_, List.getElem?_eq_getElem access⟩

theorem Instruction.logicCodes_eq_none_iff {n : Nat} : logicCodes[n]? = none ↔ 3 ≤ n :=
  List.getElem?_eq_none_iff

/-! One operation at the front, whatever stands behind it. -/

section

variable {offset : Nat} {byte : UInt8} {i : Instruction}

theorem decodeFrom_logicByte (logic : byte.toNat / 16 = logicGroup)
    (found : Instruction.logicCodes[byte.toNat % 16]? = some i) (rest : List UInt8) :
    decodeFrom offset (byte :: rest) = (decodeFrom (offset + 1) rest).map (.logic i :: ·) := by
  simp only [decodeFrom, if_pos logic, found]
  rfl

theorem decodeFrom_longByte (access : byte.toNat / 16 ≠ logicGroup)
    (found : Instruction.groups[byte.toNat / 16]? = some i)
    (long : byte.toNat % 16 = extendedArgument) (extension : UInt8) (rest : List UInt8) :
    decodeFrom offset (byte :: extension :: rest) =
      (decodeFrom (offset + 2) rest).map (⟨i, extendedArgument + extension.toNat⟩ :: ·) := by
  simp only [decodeFrom, if_neg access, found, if_pos long]
  rfl

theorem decodeFrom_shortByte (access : byte.toNat / 16 ≠ logicGroup)
    (found : Instruction.groups[byte.toNat / 16]? = some i)
    (short : byte.toNat % 16 ≠ extendedArgument) (rest : List UInt8) :
    decodeFrom offset (byte :: rest) =
      (decodeFrom (offset + 1) rest).map (⟨i, byte.toNat % 16⟩ :: ·) := by
  simp only [decodeFrom, if_neg access, found, if_neg short]
  rfl

end

section

variable {offset : Nat} {front rest : List UInt8} {ops : List Operation} {e : DecodeError}

theorem map_eq_error {f : List Operation → List Operation}
    {read : Except DecodeError (List Operation)} : read.map f = .error e ↔ read = .error e := by
  cases read <;> simp [Except.map]

theorem map_cons_append (op : Operation) (read : Except DecodeError (List Operation)) :
    (read.map (ops ++ ·)).map (op :: ·) = read.map (op :: ops ++ ·) := by
  cases read <;> rfl

/-- Behind bytes that can be read, reading goes on. -/
theorem decodeFrom_append_of_ok (read : decodeFrom offset front = .ok ops) (rest : List UInt8) :
    decodeFrom offset (front ++ rest) =
      (decodeFrom (offset + front.length) rest).map (ops ++ ·) := by
  fun_induction decodeFrom offset front generalizing ops with
  | case1 offset =>
      cases read
      rw [List.nil_append, List.length_nil, Nat.add_zero]
      cases decodeFrom offset rest <;> rfl
  | case2 | case4 | case5 => cases read
  | case3 offset byte front group low logic i found =>
      rename_i ih
      obtain ⟨more, later, same⟩ := bind_eq_ok.1 read
      cases same
      rw [List.cons_append, decodeFrom_logicByte logic found, ih later, map_cons_append,
        List.length_cons, Nat.add_right_comm, Nat.add_assoc]
  | case6 offset byte group low access i found long extension front =>
      rename_i ih
      obtain ⟨more, later, same⟩ := bind_eq_ok.1 read
      cases same
      rw [List.cons_append, List.cons_append, decodeFrom_longByte access found long, ih later,
        map_cons_append, List.length_cons, List.length_cons]
      congr 2
      omega
  | case7 offset byte front group low access i found short =>
      rename_i ih
      obtain ⟨more, later, same⟩ := bind_eq_ok.1 read
      cases same
      rw [List.cons_append, decodeFrom_shortByte access found short, ih later, map_cons_append,
        List.length_cons, Nat.add_right_comm, Nat.add_assoc]

theorem Defect.decodeFrom (defect : Defect offset rest e) :
    RelayLogic.decodeFrom offset rest = .error e := by
  cases defect with
  | unknownGroup rest beyond =>
      have none := Instruction.groups_eq_none_iff.2 (Nat.le_of_lt beyond)
      simp only [RelayLogic.decodeFrom, if_neg (Nat.ne_of_gt beyond), none]
  | unknownLogic rest logic beyond =>
      have none := Instruction.logicCodes_eq_none_iff.2 beyond
      simp only [RelayLogic.decodeFrom, if_pos logic, none]
  | @truncated byte access long =>
      obtain ⟨i, found⟩ := Instruction.exists_group access
      simp only [RelayLogic.decodeFrom, if_neg (Nat.ne_of_lt access), found, if_pos long]

theorem Breaks.behind {bytes : List UInt8} (h : Breaks (offset + front.length) bytes e)
    (read : RelayLogic.decodeFrom offset front = .ok ops) : Breaks offset (front ++ bytes) e := by
  cases h with
  | @intro front' rest more e read' defect =>
      rw [← List.append_assoc]
      have both : RelayLogic.decodeFrom offset (front ++ front') = .ok (ops ++ more) := by
        rw [decodeFrom_append_of_ok read, read']
        rfl
      apply Breaks.intro both
      rwa [List.length_append, ← Nat.add_assoc]

theorem Defect.breaks (defect : Defect offset rest e) : Breaks offset rest e :=
  @Breaks.intro offset [] rest [] e rfl defect

/-- Reading fails just where there is a defect behind what can be read. -/
theorem decodeFrom_eq_error_iff {bytes : List UInt8} :
    decodeFrom offset bytes = .error e ↔ Breaks offset bytes e := by
  constructor
  · intro failed
    fun_induction decodeFrom offset bytes generalizing e with
    | case1 => cases failed
    | case2 offset byte rest group low logic =>
        rename_i none
        cases failed
        exact (Defect.unknownLogic rest logic (Instruction.logicCodes_eq_none_iff.1 none)).breaks
    | case3 offset byte rest group low logic i found =>
        rename_i ih
        have here : decodeFrom offset [byte] = .ok [.logic i] := decodeFrom_logicByte logic found []
        have there : Breaks (offset + [byte].length) rest e := ih (map_eq_error.1 failed)
        exact there.behind here
    | case4 offset byte rest group access =>
        rename_i none
        cases failed
        have beyond := Instruction.groups_eq_none_iff.1 none
        exact (Defect.unknownGroup rest (Nat.lt_of_le_of_ne beyond (Ne.symm access))).breaks
    | case5 offset byte group low access i found =>
        rename_i long
        cases failed
        exact (Defect.truncated (List.getElem?_eq_some_iff.1 found).1 long).breaks
    | case6 offset byte group low access i found long extension rest =>
        rename_i ih
        have here : decodeFrom offset [byte, extension] = .ok [⟨i, _⟩] :=
          decodeFrom_longByte access found long extension []
        have there : Breaks (offset + [byte, extension].length) rest e :=
          ih (map_eq_error.1 failed)
        exact there.behind here
    | case7 offset byte rest group low access i found short =>
        rename_i ih
        have here : decodeFrom offset [byte] = .ok [⟨i, _⟩] :=
          decodeFrom_shortByte access found short []
        have there : Breaks (offset + [byte].length) rest e := ih (map_eq_error.1 failed)
        exact there.behind here
  · rintro ⟨read, defect⟩
    rw [decodeFrom_append_of_ok read, defect.decodeFrom]
    rfl

end

/-! What the errors say. -/

section

variable {bytes : List UInt8} {e : DecodeError}

theorem exists_split {byte : UInt8} {offset : Nat} (found : bytes[offset]? = some byte) :
    (bytes.take offset).length = offset ∧
      bytes = bytes.take offset ++ byte :: bytes.drop (offset + 1) := by
  obtain ⟨inside, rfl⟩ := List.getElem?_eq_some_iff.1 found
  rw [List.length_take_of_le (Nat.le_of_lt inside), ← List.drop_eq_getElem_cons inside]
  exact ⟨rfl, (List.take_append_drop offset bytes).symm⟩

theorem Breaks.describes (h : Breaks 0 bytes e) : e.Describes bytes := by
  obtain ⟨read, defect⟩ := h
  rw [Nat.zero_add] at defect
  cases defect with
  | @unknownGroup byte rest beyond =>
      refine ⟨⟨_, by rwa [List.take_left]⟩, byte, by simp, rfl, ?_⟩
      have small := byte.toNat_lt
      simp only [logicGroup, List.mem_cons, List.not_mem_nil, or_false] at beyond ⊢
      omega
  | @unknownLogic byte rest logic beyond =>
      have whole := Nat.div_add_mod byte.toNat 16
      rw [logic, logicGroup] at whole
      refine ⟨⟨_, by rwa [List.take_left]⟩, byte, by simp, whole.symm, beyond, ?_⟩
      exact Nat.le_of_lt_succ (Nat.mod_lt _ (by decide))
  | @truncated byte access long =>
      refine ⟨by simp, ⟨_, by rwa [List.dropLast_concat]⟩, byte, by simp, access, long⟩

theorem DecodeError.Describes.breaks (h : e.Describes bytes) : Breaks 0 bytes e := by
  cases e with
  | unknownGroup group offset =>
      obtain ⟨⟨ops, read⟩, byte, found, rfl, unused⟩ := h
      obtain ⟨length, split⟩ := exists_split found
      rw [split]
      apply Breaks.intro read
      rw [length, Nat.zero_add]
      apply Defect.unknownGroup
      simp only [logicGroup, List.mem_cons, List.not_mem_nil, or_false] at unused ⊢
      omega
  | unknownLogic code offset =>
      obtain ⟨⟨ops, read⟩, byte, found, shown, unused, nibble⟩ := h
      obtain ⟨length, split⟩ := exists_split found
      have logic : byte.toNat / 16 = logicGroup := by
        simp only [logicGroup]
        omega
      have low : byte.toNat % 16 = code := by omega
      rw [split, ← low]
      apply Breaks.intro read
      rw [length, Nat.zero_add]
      apply Defect.unknownLogic _ logic
      omega
  | truncated offset =>
      obtain ⟨rfl, ⟨ops, read⟩, byte, last, access, long⟩ := h
      obtain ⟨front, rfl⟩ := List.getLast?_eq_some_iff.1 last
      rw [List.dropLast_concat] at read
      apply Breaks.intro read
      rw [List.length_append, List.length_singleton, Nat.zero_add]
      exact .truncated access long

theorem Breaks.foretells (h : Breaks 0 bytes e) : e.Foretells bytes := by
  obtain @⟨front, rest, ops, e, read, defect⟩ := h
  rw [Nat.zero_add] at defect
  cases defect with
  | @unknownGroup byte rest beyond =>
      intro longer begins
      obtain ⟨more, rfl⟩ := begins
      rw [List.take_length_add_append, List.append_assoc]
      exact decodeFrom_eq_error_iff.2 (.intro read (by simpa using .unknownGroup more beyond))
  | @unknownLogic byte rest logic beyond =>
      intro longer begins
      obtain ⟨more, rfl⟩ := begins
      rw [List.take_length_add_append, List.append_assoc]
      exact decodeFrom_eq_error_iff.2 (.intro read (by simpa using .unknownLogic more logic beyond))
  | @truncated byte access long =>
      intro ops' read' extension
      rw [List.dropLast_concat, decode, read] at read'
      cases read'
      obtain ⟨i, found⟩ := Instruction.exists_group access
      refine ⟨⟨i, extendedArgument + extension.toNat⟩, ?_⟩
      rw [List.append_assoc, decode, decodeFrom_append_of_ok read]
      change Except.map _ (decodeFrom _ (byte :: extension :: [])) = _
      rw [decodeFrom_longByte (Nat.ne_of_lt access) found long]
      rfl

end

/-- An error is reported just where it says. All before the byte that it names can be read, and that
byte begins no operation, so bytes that go on differently behind it fail alike. Or else it is the
second byte of the last operation that is missing, and then any byte completes that operation. -/
theorem decode_fails_at_defect (bytes : List UInt8) (e : DecodeError) :
    (decode bytes = .error e ↔ e.Describes bytes) ∧
      (decode bytes = .error e → e.Foretells bytes) := by
  have breaks : decode bytes = .error e ↔ Breaks 0 bytes e := decodeFrom_eq_error_iff
  constructor
  · exact breaks.trans ⟨Breaks.describes, DecodeError.Describes.breaks⟩
  · intro failed
    exact (breaks.1 failed).foretells

/-- The second byte belongs to the first operation, and is no operation without a group. -/
example :
    decode [0x3F, 0xD0, 0xC7] = .error (.unknownLogic 7 2) ∧
      decode [0x3F, 0xD0, 0xD0] = .error (.unknownGroup 0xD 2) ∧
      decode [0x3F, 0xD0, 0x4F] = .error (.truncated 3) := by
  cbv

end RelayLogic
