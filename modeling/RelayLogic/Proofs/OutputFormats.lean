import RelayLogic.Console.Outcome
import RelayLogic.Proofs.HexDump
import RelayLogic.Proofs.ImageWriting
import RelayLogic.Proofs.OperationLines
import RelayLogic.Proofs.TreeListing

/-! The formats of the output. Whatever a source compiles to, its listing, its dump and its image
tell the same operations, and the dump and the image fail alike where an operation has no image. -/
namespace RelayLogic

/-- What a source compiles to, read as equations or as a listing. -/
inductive Source.Compiles (s : Source) : Bool → List Operation → Prop
  | program {p : Program} {ops : List Operation} : s.program = .ok p → p.code = .ok ops →
      Compiles s false ops
  | listing {l : Listing} {ops : List Operation} : s.listing = .ok l → l.code = .ok ops →
      Compiles s true ops

/-- The operations of a source, if it compiles. -/
def Source.code? (s : Source) (listing : Bool) : Option (List Operation) :=
  if listing then s.listing.toOption.bind fun l => l.code.toOption
  else s.program.toOption.bind fun p => p.code.toOption

theorem toOption_eq_some {ε α : Type} {x : Except ε α} {a : α} :
    x.toOption = some a ↔ x = .ok a := by
  cases x <;> simp [Except.toOption]

theorem Source.code?_eq_some {s : Source} {listing : Bool} {ops : List Operation} :
    s.code? listing = some ops ↔ s.Compiles listing ops := by
  cases listing with
  | false =>
      refine Option.bind_eq_some_iff.trans ?_
      simp only [toOption_eq_some]
      constructor
      · rintro ⟨p, read, compiled⟩
        exact .program read compiled
      · rintro (⟨read, compiled⟩ | _)
        exact ⟨_, read, compiled⟩
  | true =>
      refine Option.bind_eq_some_iff.trans ?_
      simp only [toOption_eq_some]
      constructor
      · rintro ⟨l, read, compiled⟩
        exact .listing read compiled
      · rintro (_ | ⟨read, compiled⟩)
        exact ⟨_, read, compiled⟩

/-! Code has no index that its image would lose. -/

section

variable {ops : List Operation}

theorem Operation.shown_of_access {i : Instruction} {a : Access} {c : Category}
    (access : i.access? = some (a, c)) (n : Nat) : Operation.shown ⟨i, n⟩ = ⟨i, n⟩ := by
  simp only [shown, access]

theorem Mnemonic.Joins.shown {m : Mnemonic} {joint : Instruction} (h : m.Joins joint) :
    (Operation.logic joint).shown = .logic joint := by
  cases h <;> rfl

theorem shown_of_mem_inversion {inverted : Bool} : ∀ op ∈ inversion inverted, op.shown = op := by
  cases inverted with
  | false => exact nofun
  | true => exact List.forall_mem_singleton.2 rfl

theorem Line.Yields.shown {line : Line} (h : line.Yields ops) : ∀ op ∈ ops, op.shown = op := by
  cases h with
  | read access =>
      exact List.forall_mem_cons.2 ⟨Operation.shown_of_access access _, shown_of_mem_inversion⟩
  | join joins access =>
      refine List.forall_mem_cons.2 ⟨Operation.shown_of_access access _, ?_⟩
      exact List.forall_mem_append.2
        ⟨shown_of_mem_inversion, List.forall_mem_singleton.2 joins.shown⟩
  | alone joins => exact List.forall_mem_singleton.2 joins.shown
  | store _ access =>
      exact List.forall_mem_append.2 ⟨shown_of_mem_inversion,
        List.forall_mem_singleton.2 (Operation.shown_of_access access _)⟩

theorem shown_of_forall₂_yields {lines : List Line} {codes : List (List Operation)}
    (each : List.Forall₂ Line.Yields lines codes) : ∀ op ∈ codes.flatten, op.shown = op := by
  induction each with
  | nil => exact nofun
  | cons yields _ ih => exact List.forall_mem_append.2 ⟨yields.shown, ih⟩

theorem Listing.shown_of_code {l : Listing} (compiled : l.code = .ok ops) :
    ops.map Operation.shown = ops := by
  obtain ⟨codes, each, rfl⟩ := Listing.code_eq_ok.1 compiled
  rw [List.map_congr_left (shown_of_forall₂_yields each), List.map_id']

/-- A program has the code of a listing. -/
theorem Source.Compiles.shown {s : Source} {listing : Bool} (h : s.Compiles listing ops) :
    ops.map Operation.shown = ops := by
  cases h with
  | program _ compiled => exact Listing.shown_of_code (Program.code_listing compiled)
  | listing _ compiled => exact Listing.shown_of_code compiled

end

/-! Runs. -/

/-- The options that ask for one format and no more. -/
def Options.emitting (verbosity : Nat) (listing : Bool) (input : String) (format : Format)
    (output : Option String) : Options :=
  ⟨verbosity, listing, format, none, none, output, input⟩

section

variable {verbosity : Nat} {listing : Bool} {input : String} {format : Format}
  {output : Option String} {source : Source} {ops : List Operation}

theorem Source.Compiles.plan (h : source.Compiles listing ops) :
    (Options.emitting verbosity listing input format output).plan source =
      ⟨"", "", (Options.emitting verbosity listing input format output).deliver ops⟩ := by
  cases h with
  | program read compiled =>
      have nothing : "" ++ "" = "" := rfl
      simp only [Options.plan, Options.emitting, read, Plan.ofProgram, Plan.resolved, Plan.table,
        compiled, Plan.finish, nothing]
      rfl
  | listing read compiled =>
      simp only [Options.plan, Options.emitting, read, Plan.finish, compiled]
      rfl

/-- Where a source compiles, what is left is to deliver its operations. -/
theorem Options.perform_emitting (h : source.Compiles listing ops) {stdin : List UInt8}
    {w : Workspace} (quiet : verbosity ≤ maxVerbosity)
    (opened : (emitting verbosity listing input .ops none).source stdin w = .ok source) :
    (emitting verbosity listing input format output).perform stdin w =
      Plan.carryOut ⟨"", "", (emitting verbosity listing input format output).deliver ops⟩ w := by
  have accepted : (emitting verbosity listing input format output).failure? = none :=
    if_neg (Nat.not_lt_of_le quiet)
  have same : (emitting verbosity listing input format output).source stdin w = .ok source := opened
  simp only [perform, accepted, same, h.plan]

end

theorem Outcome.status_finish {printed reported : String} {failure : Option Failure} :
    (Outcome.finish printed reported failure).status = 0 ↔ failure = none := by
  cases failure <;> simp [Outcome.finish]

theorem Outcome.printed_finish (printed reported : String) (failure : Option Failure) :
    (Outcome.finish printed reported failure).printed = printed := by
  cases failure <;> rfl

theorem Workspace.entry?_put (w : Workspace) (place : Place) (bytes : List UInt8) :
    Workspace.entry? (w.put place bytes) place = some (.file bytes) := by
  have first : (w.put place bytes).files.find? (·.1 = place) = some (place, bytes) :=
    List.find?_cons_of_pos (decide_eq_true rfl)
  rw [ entry?, first]

/-- What is saved to a path that leads to no device is in the file that it leads to. -/
theorem Plan.carryOut_save {w : Workspace} {path : String} {place : Place}
    (target : w.target path = .ok place) (writable : ∀ d, w.entry? place ≠ some (.device d))
    (bytes : List UInt8) (failure : Option Failure) (refusal : Failure) :
    Plan.carryOut ⟨"", "", .save path bytes failure refusal⟩ w =
      (.finish "" "" failure, w.put place bytes) := by
  simp only [carryOut, target]

/-! Formats. -/

section

variable {ops : List Operation} {image : List UInt8}

/-- Whether every access has an index that an image has room for. -/
def Fits (ops : List Operation) : Prop :=
  ∀ op ∈ ops, op.instruction.access? ≠ none → op.argument ≤ 270

theorem fits_iff : Fits ops ↔ ∀ op ∈ ops, op.inRange = true :=
  forall₂_congr fun _ _ => by rw [Operation.inRange_iff, Operation.exists_encode_iff]; rfl

theorem Fits.encode_eq (fits : Fits ops)
    (encoded : encode (ops.takeWhile Operation.inRange) = .ok image) : encode ops = .ok image := by
  rw [encode_eq_map_conclusion encoded, conclusion_eq_ok.2 ⟨fits_iff.1 fits, rfl⟩]
  rfl

theorem exists_error_of_not_fits (beyond : ¬Fits ops) : ∃ e, encode ops = .error e := by
  cases encoded : encode ops with
  | error e => exact ⟨e, rfl⟩
  | ok image => exact absurd (exists_encode_iff.1 ⟨image, encoded⟩) beyond

/-- The operations that have an image are those before the first that has none. -/
theorem takeWhile_inRange {before after : List Operation} {op : Operation} (fits : Fits before)
    (access : op.instruction.access? ≠ none) (beyond : 270 < op.argument) :
    (before ++ op :: after).takeWhile Operation.inRange = before := by
  have out : ¬op.inRange = true := by
    rw [Operation.inRange_iff, Operation.exists_encode_iff]
    exact fun inside => absurd (inside access) (Nat.not_le_of_lt beyond)
  rw [List.takeWhile_append_of_pos (fits_iff.1 fits), List.takeWhile_cons_of_neg out,
    List.append_nil]

theorem Format.text_hex (encoded : encode (ops.takeWhile Operation.inRange) = .ok image) :
    (Fits ops → Format.hex.text ops = (hexText image, none)) ∧
      (¬Fits ops → (Format.hex.text ops).1 = "" ∧ (Format.hex.text ops).2 ≠ none) := by
  constructor
  · intro fits
    simp only [text, fits.encode_eq encoded]
  · intro beyond
    obtain ⟨e, failed⟩ := exists_error_of_not_fits beyond
    simp only [text, failed, ne_eq, reduceCtorEq, not_false_eq_true, and_self]

/-- An image that is saved has all the operations before the first that has none. -/
theorem Options.deliver_bin (encoded : encode (ops.takeWhile Operation.inRange) = .ok image)
    {o : Options} (format : o.format = .bin) {path : String} (output : o.output = some path) :
    ∃ failure, o.deliver ops = .save path image failure (Format.bin.refusal path) ∧
      (failure = none ↔ Fits ops) := by
  have bytes : (emit ops (.empty none)).2.bytes.toList = image := by
    rw [bytes_emit encoded]
    simp [Sink.empty, Sink.room]
  have result : (emit ops (.empty none)).1 = conclusion image.length ops := by
    rw [result_emit encoded]
    exact if_neg (Nat.lt_irrefl _)
  have worked : (∃ count, (emit ops (.empty none)).1 = .ok count) ↔ Fits ops := by
    rw [result]
    simp only [conclusion_eq_ok, fits_iff, exists_and_left, exists_eq, and_true]
  rw [deliver, format, output]
  rcases run : emit ops (.empty none) with ⟨e | count, sink⟩
  · rw [run] at bytes worked
    refine ⟨_, congrArg (Delivery.save path · _ _) bytes, ?_⟩
    rw [← worked]
    apply iff_of_false
    · intro nothing
      cases nothing
    · intro counted
      obtain ⟨count, same⟩ := counted
      cases same
  · rw [run] at bytes worked
    refine ⟨none, congrArg (Delivery.save path · _ _) bytes, ?_⟩
    rw [← worked]
    exact iff_of_true rfl ⟨count, rfl⟩

end

namespace Source.Compiles

variable {source : Source} {listing : Bool} {ops : List Operation} {verbosity : Nat}
  {input : String} {stdin : List UInt8} {w : Workspace} {path : String} {place : Place}

theorem perform_print (h : source.Compiles listing ops) (quiet : verbosity ≤ maxVerbosity)
    (opened : (Options.emitting verbosity listing input .ops none).source stdin w = .ok source)
    {format : Format} (textual : format ≠ .bin) :
    (Options.emitting verbosity listing input format none).perform stdin w =
      (.finish (format.text ops).1 "" (format.text ops).2, w) := by
  rw [Options.perform_emitting h quiet opened]
  cases format with
  | bin => exact absurd rfl textual
  | ops | hex =>
      simp only [Options.deliver, Options.emitting, Plan.carryOut, String.empty_append]

theorem perform_save (h : source.Compiles listing ops) (quiet : verbosity ≤ maxVerbosity)
    (opened : (Options.emitting verbosity listing input .ops none).source stdin w = .ok source)
    (target : w.target path = .ok place) (writable : ∀ d, w.entry? place ≠ some (.device d))
    {format : Format} (textual : format ≠ .bin) :
    (Options.emitting verbosity listing input format (some path)).perform stdin w =
      (.finish "" "" (format.text ops).2, w.put place (utf8Bytes (format.text ops).1)) := by
  rw [Options.perform_emitting h quiet opened]
  cases format with
  | bin => exact absurd rfl textual
  | ops | hex => exact Plan.carryOut_save target writable _ _ _

theorem perform_bin (h : source.Compiles listing ops) (quiet : verbosity ≤ maxVerbosity)
    (opened : (Options.emitting verbosity listing input .ops none).source stdin w = .ok source)
    (target : w.target path = .ok place) (writable : ∀ d, w.entry? place ≠ some (.device d))
    {image : List UInt8} (encoded : encode (ops.takeWhile Operation.inRange) = .ok image) :
    ∃ failure, (Options.emitting verbosity listing input .bin (some path)).perform stdin w =
        (.finish "" "" failure, w.put place image) ∧ (failure = none ↔ Fits ops) := by
  obtain ⟨failure, delivered, fails⟩ :=
    Options.deliver_bin (o := .emitting verbosity listing input .bin (some path)) encoded rfl rfl
  refine ⟨failure, ?_, fails⟩
  rw [Options.perform_emitting h quiet opened, delivered]
  exact Plan.carryOut_save target writable _ _ _

/-- The listing, the dump and the image of what a source compiles to tell the same operations. The
dump and the image succeed alike, just if every access has an index of at most 270. Then the dump
shows the bytes of the image in groups of two digits, sixteen in each row but the last, and these
bytes are decoded to the operations that are listed. If not, the dump shows nothing, and the file
holds the image of the operations before the first one that has none. A listing or a dump is the
same in a file. With a listing nothing is reported, unless there are log lines. -/
theorem formats_agree (h : source.Compiles listing ops) (quiet : verbosity ≤ maxVerbosity)
    (opened : (Options.emitting verbosity listing input .ops none).source stdin w = .ok source)
    (target : w.target path = .ok place) (writable : ∀ d, w.entry? place ≠ some (.device d)) :
    let run := fun format output =>
      (Options.emitting verbosity listing input format output).perform stdin w
    ((run .hex none).1.status = 0 ↔ Fits ops) ∧ ((run .bin (some path)).1.status = 0 ↔ Fits ops) ∧
      ((run .ops none).1.status = 0 ∧
        (run .ops none).1.printed = unlines (ops.map Operation.render) ∧
        (verbosity < logVerbosity → (run .ops none).1.reported = "") ∧
        ∀ listed, listed.map Operation.shown = listed →
          (run .ops none).1.printed = unlines (listed.map Operation.render) → listed = ops) ∧
      (∀ format, format ≠ .bin →
        (run format (some path)).1.status = (run format none).1.status ∧
          (run format (some path)).2 = w.put place (utf8Bytes (run format none).1.printed)) ∧
      ∃ image, (run .bin (some path)).2 = w.put place image ∧
        Workspace.entry? (w.put place image) place = some (.file image) ∧
        (Fits ops → decode image = .ok ops ∧
          ∃ rows, readHexRows (run .hex none).1.printed.toList = some rows ∧ HexLayout rows ∧
            rows.flatten = image) ∧
        ∀ before op after, ops = before ++ op :: after → Fits before →
          op.instruction.access? ≠ none → 270 < op.argument →
          (run .hex none).1.printed = "" ∧ encode before = .ok image := by
  intro run
  obtain ⟨image, encoded⟩ := exists_image ops
  obtain ⟨failure, saved, fails⟩ := h.perform_bin quiet opened target writable encoded
  obtain ⟨good, bad⟩ := Format.text_hex encoded
  have hex : run .hex none = (.finish (Format.hex.text ops).1 "" (Format.hex.text ops).2, w) :=
    h.perform_print quiet opened nofun
  have dumped : (run .hex none).1.printed = (Format.hex.text ops).1 := by
    rw [hex, Outcome.printed_finish]
  have listing : (run .ops none).1 = ⟨0, opsText ops, ""⟩ :=
    congrArg Prod.fst (h.perform_print quiet opened (show Format.ops ≠ .bin from nofun))
  refine ⟨?_, ?_, ⟨?_, ?_, fun _ => ?_, ?_⟩, ?_, image, ?_, w.entry?_put place image, ?_, ?_⟩
  · rw [hex, Outcome.status_finish]
    by_cases fits : Fits ops
    · simp only [good fits, fits]
    · exact iff_of_false (bad fits).2 fits
  · rw [← fails, show run .bin (some path) = _ from saved, Outcome.status_finish]
  · rw [listing]
  · rw [listing, opsText]
  · rw [listing]
  · intro listed shown same
    rw [listing] at same
    rw [← shown, ← h.shown]
    exact (shown_eq_of_opsText same).symm
  · intro format textual
    rw [show run format (some path) = _ from h.perform_save quiet opened target writable textual,
      show run format none = _ from h.perform_print quiet opened textual, Outcome.printed_finish]
    refine ⟨?_, rfl⟩
    cases (format.text ops).2 <;> rfl
  · rw [show run .bin (some path) = _ from saved]
  · intro fits
    have whole := fits.encode_eq encoded
    refine ⟨?_, hexRows image, ?_, hexLayout_hexRows image, flatten_hexRows image⟩
    · rw [decode, decodeFrom_encode 0 whole, h.shown]
    · rw [dumped, good fits]
      exact readHexRows_hexText image
  · intro before op after split fits access beyond
    have out : ¬Fits ops := by
      intro all
      rw [split] at all
      exact absurd (all op (List.mem_append_right _ List.mem_cons_self) access)
        (Nat.not_le_of_lt beyond)
    rw [split, takeWhile_inRange fits access beyond] at encoded
    rw [dumped]
    exact ⟨(bad out).1, encoded⟩

end Source.Compiles

/-- Two inputs, the second of which an image has no room for if its index is beyond 270. -/
def inputsText (index : String) : List UInt8 :=
  utf8Bytes ("inputs: a = 20, b = " ++ index ++ ";\noutputs: o = 1;\no = a & !b;")

def inputsCode (index : Nat) : List Operation :=
  [⟨.readInput, 20⟩, ⟨.readInput, index⟩, .logic .not, .logic .and, ⟨.writeOutput, 1⟩]

theorem splitOn_letter : "x".splitOn "/" = ["x"] := by
  rw [String.splitOn, if_neg (by decide), String.splitOnAux, String.splitOnAux]
  decide

theorem target_letter : (Workspace.mk []).target "x" = .ok ("x" :: workingDirectory) := by
  have path : Path.ofText "x" = .ok ⟨workingDirectory, ["x"], false⟩ := by
    simp only [Path.ofText, splitOn_letter]
    decide
  rw [Workspace.target, path]
  rfl

theorem formats_agree_inputsText :
    let run := fun index format output =>
      (Options.emitting 0 false "-" format output).perform (inputsText index) ⟨[]⟩
    let written := (Workspace.mk []).put ("x" :: workingDirectory)
    Fits (inputsCode 270) ∧ (run "270" .hex none).1.status = 0 ∧
      (∃ image rows, (run "270" .bin (some "x")).2 = written image ∧
        decode image = .ok (inputsCode 270) ∧
        readHexRows (run "270" .hex none).1.printed.toList = some rows ∧ rows.flatten = image) ∧
      (run "271" .hex none).1.printed = "" ∧
        ∃ image, (run "271" .bin (some "x")).2 = written image ∧
          encode [⟨.readInput, 20⟩] = .ok image := by
  intro run written
  have compiles : (Source.ofBytes "-" (inputsText "270")).Compiles false (inputsCode 270) :=
    Source.code?_eq_some.1 (by cbv)
  have compiles' : (Source.ofBytes "-" (inputsText "271")).Compiles false (inputsCode 271) :=
    Source.code?_eq_some.1 (by cbv)
  have opened (index : String) :
      (Options.emitting 0 false "-" .ops none).source (inputsText index) (.mk []) =
        .ok (Source.ofBytes "-" (inputsText index)) := rfl
  have quiet : 0 ≤ maxVerbosity := Nat.zero_le _
  have writable (d : Device) :
      Workspace.entry? (.mk []) ("x" :: workingDirectory) ≠ some (.device d) := by
    have nothing : Workspace.entry? (.mk []) ("x" :: workingDirectory) = none := by cbv
    rw [nothing]
    exact Option.some_ne_none (Entry.device d) ∘ Eq.symm
  have fits : Fits (inputsCode 270) := by
    unfold Fits
    decide
  have front : Fits [⟨.readInput, 20⟩] := by
    unfold Fits
    decide
  obtain ⟨dump, -, -, -, image, saved, -, whole, -⟩ :=
    compiles.formats_agree quiet (opened "270") target_letter writable
  obtain ⟨decoded, rows, shown, -, flat⟩ := whole fits
  obtain ⟨-, -, -, -, image', saved', -, -, broken⟩ :=
    compiles'.formats_agree quiet (opened "271") target_letter writable
  obtain ⟨blank, short⟩ := broken [⟨.readInput, 20⟩] _ _ rfl front (by decide) (by decide)
  exact ⟨fits, dump.2 fits, ⟨image, rows, saved, decoded, shown, flat⟩, blank, image', saved', short⟩

end RelayLogic
