import RelayLogic.Proofs.Image

/-! Writing an image piece by piece. Two writes in a row do what one write of both would do, so the
bytes that get into a sink are those of a single write of the whole image, as far as there is one.
Where the sink has room for all of it, what ends the writing is the first operation without an
image, if there is any. -/
namespace RelayLogic

/-- Whether an operation has an image. A logical one always has. -/
def Operation.inRange (op : Operation) : Bool :=
  op.instruction.access?.isNone || op.argument ≤ maxArgument

namespace Operation

variable {op : Operation}

theorem inRange_iff : op.inRange = true ↔ ∃ bytes, op.encode = .ok bytes := by
  rw [exists_encode_iff, inRange]
  cases op.instruction.access? <;> simp

theorem encode_of_not_inRange (beyond : op.inRange = false) :
    op.encode = .error (.argumentOutOfRange op.instruction op.argument) := by
  simp only [inRange, Bool.or_eq_false_iff, decide_eq_false_iff_not] at beyond
  obtain ⟨accesses, large⟩ := beyond
  have small : extendedArgument ≤ maxArgument := by decide
  rw [encode_access (by simpa [Option.isSome_iff_ne_none] using accesses), if_neg (by omega), if_neg large]

end Operation

namespace Sink

/-- A sink that lacks room for some bytes lacks it for more of them. -/
theorem room_add_of_lt {s : Sink} {count : Nat} (full : s.room count < count) (more : Nat) :
    s.room (count + more) = s.room count := by
  rcases s with ⟨_ | limit, taken⟩ <;> simp only [room] at full ⊢ <;> omega

/-- What has been written takes its room from what is written next. -/
theorem room_add_of_le {s : Sink} {bytes : List UInt8} (fits : ¬s.room bytes.length < bytes.length)
    (more : Nat) :
    s.room (bytes.length + more) =
      bytes.length + Sink.room { s with bytes := s.bytes ++ bytes } more := by
  rcases s with ⟨limit, taken⟩
  have size : (taken ++ bytes).size = taken.size + bytes.length := by
    rw [← Array.length_toList, Array.toList_appendList, List.length_append, Array.length_toList]
  cases limit with
  | none => rfl
  | some limit =>
      simp only [room, size] at fits ⊢
      omega

theorem write_of_lt {s : Sink} {bytes : List UInt8} (full : s.room bytes.length < bytes.length) :
    s.write bytes =
      (.error .sinkFull, { s with bytes := s.bytes ++ bytes.take (s.room bytes.length) }) := by
  simp only [write, if_pos full]

theorem write_of_le {s : Sink} {bytes : List UInt8}
    (fits : ¬s.room bytes.length < bytes.length) :
    s.write bytes = (.ok (), { s with bytes := s.bytes ++ bytes }) := by
  simp only [write, if_neg fits, List.take_of_length_le (Nat.le_of_not_lt fits)]

theorem write_nil (s : Sink) : s.write [] = (.ok (), s) := by
  have joined : s.bytes ++ ([] : List UInt8) = s.bytes := Array.toList_inj.1 (by simp)
  simp only [write, List.length_nil, Nat.not_lt_zero, if_false, List.take_nil, joined]

/-- Two writes in a row do what one write of both does. -/
theorem write_append (s : Sink) (first second : List UInt8) :
    s.write (first ++ second) =
      match s.write first with
      | (.error e, s) => (.error e, s)
      | (.ok (), s) => s.write second := by
  by_cases fits : s.room first.length < first.length
  · have room := room_add_of_lt fits second.length
    have full : s.room (first ++ second).length < (first ++ second).length := by
      rw [List.length_append, room]
      exact Nat.lt_of_lt_of_le fits (Nat.le_add_right ..)
    rw [write_of_lt fits, write_of_lt full, List.length_append, room,
      List.take_append_of_le_length (Nat.le_of_lt fits)]
  · have room := room_add_of_le fits second.length
    have joined (more : List UInt8) : s.bytes ++ (first ++ more) = s.bytes ++ first ++ more :=
      Array.toList_inj.1 (by simp)
    rw [write_of_le fits]
    simp only [write, List.length_append, room, List.take_length_add_append, joined,
      Nat.add_lt_add_iff_left]

end Sink

/-- What ends the writing of operations once all that have an image are written: the first one that
has none, or else the end of them, with the bytes counted. -/
def conclusion (written : Nat) (ops : List Operation) : Except EncodeError Nat :=
  match ops.find? (!·.inRange) with
  | some op => .error (.argumentOutOfRange op.instruction op.argument)
  | none => .ok written

theorem conclusion_of_inRange {op : Operation} (named : op.inRange = true) (written : Nat)
    (rest : List Operation) : conclusion written (op :: rest) = conclusion written rest := by
  simp only [conclusion, List.find?_cons, named, Bool.not_true]

theorem conclusion_of_not_inRange {op : Operation} (beyond : op.inRange = false) (written : Nat)
    (rest : List Operation) :
    conclusion written (op :: rest) = .error (.argumentOutOfRange op.instruction op.argument) := by
  simp only [conclusion, List.find?_cons, beyond, Bool.not_false]

theorem exists_image (ops : List Operation) :
    ∃ image, encode (ops.takeWhile Operation.inRange) = .ok image := by
  refine exists_encode_iff.2 fun op member => ?_
  have named := List.all_eq_true.1 List.all_takeWhile op member
  exact Operation.exists_encode_iff.1 (Operation.inRange_iff.1 named)

section

variable {ops : List Operation} {image : List UInt8}

/-- Writing operations one by one is writing in one go the image of those before the first one that
has none. -/
theorem emitFrom_eq_write (encoded : encode (ops.takeWhile Operation.inRange) = .ok image)
    (written : Nat) (s : Sink) :
    emitFrom written ops s =
      match s.write image with
      | (.error e, s) => (.error e, s)
      | (.ok (), s) => (conclusion (written + image.length) ops, s) := by
  induction ops generalizing image written s with
  | nil =>
      cases encoded
      rw [Sink.write_nil]
      rfl
  | cons op rest ih =>
      cases named : op.inRange with
      | false =>
          rw [List.takeWhile_cons_of_neg (by simp [named])] at encoded
          cases encoded
          simp only [emitFrom, op.encode_of_not_inRange named, Sink.write_nil,
            conclusion_of_not_inRange named]
      | true =>
          rw [List.takeWhile_cons_of_pos named] at encoded
          obtain ⟨first, later, here, there, rfl⟩ := encode_cons_eq_ok.1 encoded
          simp only [emitFrom, here, Sink.write_append]
          rcases s.write first with ⟨e | _, s'⟩
          · rfl
          · simp only [ih there, conclusion_of_inRange named, List.length_append, Nat.add_assoc]

/-- An image made in memory is that of a sink without a limit. -/
theorem encode_eq_map_conclusion (encoded : encode (ops.takeWhile Operation.inRange) = .ok image) :
    encode ops = (conclusion image.length ops).map fun _ => image := by
  induction ops generalizing image with
  | nil =>
      cases encoded
      rfl
  | cons op rest ih =>
      cases named : op.inRange with
      | false =>
          rw [encode, op.encode_of_not_inRange named, conclusion_of_not_inRange named]
          rfl
      | true =>
          rw [List.takeWhile_cons_of_pos named] at encoded
          obtain ⟨first, later, here, there, rfl⟩ := encode_cons_eq_ok.1 encoded
          rw [encode, here, conclusion_of_inRange named, ih there]
          unfold conclusion
          split <;> rfl

end

theorem encode_append (first second : List Operation) :
    encode (first ++ second) = do
      let front ← encode first
      let back ← encode second
      return front ++ back := by
  induction first with
  | nil =>
      rw [List.nil_append]
      rcases encode second with e | back <;> rfl
  | cons op rest ih =>
      simp only [List.cons_append, encode, ih, bind_assoc, pure_bind, List.append_assoc]

section

variable {ops : List Operation} {image : List UInt8}

theorem conclusion_eq_ok {written count : Nat} :
    conclusion written ops = .ok count ↔ (∀ op ∈ ops, op.inRange = true) ∧ count = written := by
  unfold conclusion
  cases found : ops.find? (!·.inRange) with
  | none =>
      have each : ∀ op ∈ ops, op.inRange = true := by simpa using found
      exact ⟨fun h => ⟨each, (Except.ok.inj h).symm⟩, fun h => congrArg Except.ok h.2.symm⟩
  | some op =>
      have beyond : op.inRange = false := by simpa using List.find?_some found
      simp only [reduceCtorEq, false_iff, not_and]
      intro each
      rw [each op (List.mem_of_find?_eq_some found)] at beyond
      cases beyond

theorem conclusion_eq_outOfRange {written argument : Nat} {i : Instruction} :
    conclusion written ops = .error (.argumentOutOfRange i argument) ↔
      ops.find? (!·.inRange) = some ⟨i, argument⟩ := by
  unfold conclusion
  cases ops.find? (!·.inRange) with
  | none => simp
  | some op =>
      rcases op with ⟨j, n⟩
      simp

theorem conclusion_ne_sinkFull {written : Nat} : conclusion written ops ≠ .error .sinkFull := by
  unfold conclusion
  split <;> nofun

theorem bytes_emit (encoded : encode (ops.takeWhile Operation.inRange) = .ok image) (s : Sink) :
    (emit ops s).2.bytes.toList = s.bytes.toList ++ image.take (s.room image.length) := by
  simp only [emit, emitFrom_eq_write encoded, Sink.write]
  split <;> rename_i result <;> split at result <;> cases result <;> simp

theorem result_emit (encoded : encode (ops.takeWhile Operation.inRange) = .ok image) (s : Sink) :
    (emit ops s).1 =
      if s.room image.length < image.length then .error .sinkFull
      else conclusion image.length ops := by
  rw [emit, emitFrom_eq_write encoded, Nat.zero_add]
  by_cases full : s.room image.length < image.length
  · rw [Sink.write_of_lt full, if_pos full]
  · rw [Sink.write_of_le full, if_neg full]

/-- A sink with a limit is full if it is below the length of the image. -/
theorem result_emit_limit (encoded : encode (ops.takeWhile Operation.inRange) = .ok image)
    (limit : Nat) :
    (emit ops (.empty (some limit))).1 =
      if limit < image.length then .error .sinkFull else conclusion image.length ops := by
  have room : (Sink.empty (some limit)).room image.length < image.length ↔ limit < image.length := by
    simp only [Sink.empty, Sink.room, List.size_toArray, List.length_nil]
    omega
  rw [result_emit encoded]
  simp only [room]

end

/-- Writing operations to a sink gets the first bytes of the image of those before the first one
that has none, as many as the sink takes. The sink fails just if that image is too long for it.
Otherwise all bytes are counted if every operation has an image, and the first one that has none is
named if not. Without a limit this is what the image in memory is, and an image can be made of the
images of its parts. -/
theorem emit_to_sink (ops : List Operation) :
    ∃ image, encode (ops.takeWhile Operation.inRange) = .ok image ∧
      (∀ limit,
        let result := emit ops (.empty (some limit))
        result.2.bytes.toList = image.take (min limit image.length) ∧
        (∀ count, result.1 = .ok count ↔
          (∀ op ∈ ops, op.inRange = true) ∧ image.length ≤ limit ∧ count = image.length) ∧
        (∀ i argument, result.1 = .error (.argumentOutOfRange i argument) ↔
          ops.find? (!·.inRange) = some ⟨i, argument⟩ ∧ image.length ≤ limit) ∧
        (result.1 = .error .sinkFull ↔ limit < image.length)) ∧
      (emit ops (.empty none)).2.bytes.toList = image ∧
      (encode ops = (emit ops (.empty none)).1.map fun _ => image) ∧
      ∀ more, encode (ops ++ more) = do
        let front ← encode ops
        let back ← encode more
        return front ++ back := by
  obtain ⟨image, encoded⟩ := exists_image ops
  have bytes := bytes_emit encoded
  refine ⟨image, encoded, fun limit => ?_, ?_, ?_, encode_append ops⟩
  · dsimp only
    rw [result_emit_limit encoded]
    refine ⟨by simp [bytes, Sink.empty, Sink.room, Nat.min_comm], ?_⟩
    by_cases fits : image.length ≤ limit
    · rw [if_neg (Nat.not_lt_of_le fits)]
      simp only [conclusion_eq_ok, conclusion_eq_outOfRange, conclusion_ne_sinkFull, fits,
        Nat.not_lt_of_le fits, true_and, and_true, implies_true]
    · simp [Nat.lt_of_not_le fits, fits]
  · simp [bytes, Sink.empty, Sink.room]
  · rw [result_emit encoded, encode_eq_map_conclusion encoded]
    simp [Sink.empty, Sink.room]

/-- The image of the first two operations has four bytes. With room for three, the second byte of the
flag is lost and the third operation, which has no image, is not reached; with room for four it is
named. -/
theorem emit_to_sink_readInput :
    let ops : List Operation := [⟨.readInput, 20⟩, ⟨.writeFlag, 15⟩, ⟨.setFlag, 271⟩]
    let short := emit ops (.empty (some 3))
    let long := emit ops (.empty (some 4))
    short.2.bytes.toList = [0x3F, 5, 0x5F] ∧ short.1 = .error .sinkFull ∧
      long.2.bytes.toList = [0x3F, 5, 0x5F, 0] ∧
      long.1 = .error (.argumentOutOfRange .setFlag 271) ∧
      (emit ops (.empty none)).2.bytes.toList = [0x3F, 5, 0x5F, 0] := by
  intro ops short long
  obtain ⟨image, encoded, written, unlimited, -, -⟩ := emit_to_sink ops
  obtain rfl : [0x3F, 5, 0x5F, 0] = image := Except.ok.inj encoded
  obtain ⟨shortBytes, -, -, full⟩ := written 3
  obtain ⟨longBytes, -, named, -⟩ := written 4
  exact ⟨shortBytes, full.2 (by decide), longBytes, (named _ _).2 ⟨rfl, by decide⟩, unlimited⟩

end RelayLogic
