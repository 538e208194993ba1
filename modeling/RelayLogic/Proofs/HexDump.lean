import Mathlib.Data.List.Basic
import RelayLogic.Console.Plan

/-! Hexadecimal dumps. A dump is read group by group, without looking at how it was made. What is
read are the bytes that were dumped, in rows of sixteen of which only the last may be shorter. -/
namespace RelayLogic

/-- The value of a hexadecimal digit, a letter being lower case. -/
def hexValue? (c : Char) : Option Nat :=
  if c.isDigit then some (c.toNat - '0'.toNat)
  else if 'a' ≤ c ∧ c ≤ 'f' then some (c.toNat - 'a'.toNat + 10)
  else none

/-- Puts a byte before rows: into the first of them, or into one of its own. -/
def consByte (byte : UInt8) (stop : Char) (rows : List (List UInt8)) :
    Option (List (List UInt8)) :=
  if stop = '\n' then some ([byte] :: rows)
  else if stop = ' ' then
    match rows with
    | row :: rows => some ((byte :: row) :: rows)
    | [] => none
  else none

/-- Reads groups of two digits. Behind each stands a blank, or a line feed that ends the row. -/
def readHexRows : List Char → Option (List (List UInt8))
  | [] => some []
  | high :: low :: stop :: rest => do
    let high ← hexValue? high
    let low ← hexValue? low
    let rows ← readHexRows rest
    consByte (UInt8.ofNat (high * 16 + low)) stop rows
  | _ => none

theorem hexValue?_digitChar {n : Nat} (digit : n < 16) : hexValue? n.digitChar = some n := by
  have each : ∀ k : Fin 16, hexValue? (Nat.digitChar k) = some k.val := by decide
  exact each ⟨n, digit⟩

section

variable {b : UInt8} {rest : List Char} {row : List UInt8} {rows : List (List UInt8)}

theorem readHexRows_hexByte (b : UInt8) (stop : Char) (read : readHexRows rest = some rows) :
    readHexRows ((hexByte b).toList ++ stop :: rest) = consByte b stop rows := by
  have high : b.toNat / 16 < 16 := Nat.div_lt_of_lt_mul b.toNat_lt
  have low : b.toNat % 16 < 16 := Nat.mod_lt _ (by decide)
  have digits : (hexByte b).toList =
      [Nat.digitChar (b.toNat / 16), Nat.digitChar (b.toNat % 16)] := String.toList_ofList
  have byte : UInt8.ofNat (b.toNat / 16 * 16 + b.toNat % 16) = b := by
    rw [Nat.div_add_mod', UInt8.ofNat_toNat]
  calc readHexRows ((hexByte b).toList ++ stop :: rest)
      = consByte (UInt8.ofNat (b.toNat / 16 * 16 + b.toNat % 16)) stop rows := by
        rw [digits, List.cons_append, List.singleton_append, readHexRows,
          hexValue?_digitChar high, hexValue?_digitChar low, read]
        rfl
    _ = consByte b stop rows := by rw [byte]

/-- A row is read back, whatever rows follow. -/
theorem readHexRows_row (some : row ≠ []) (read : readHexRows rest = .some rows) :
    readHexRows ((" ".intercalate (row.map hexByte)).toList ++ '\n' :: rest) =
      .some (row :: rows) := by
  induction row with
  | nil => exact absurd rfl some
  | cons b row ih =>
      cases row with
      | nil =>
          rw [List.map_singleton, String.intercalate_singleton]
          exact readHexRows_hexByte b '\n' read
      | cons c row =>
          have later := ih (List.cons_ne_nil c row)
          rw [List.map_cons, List.map_cons, String.intercalate_cons_cons, ← List.map_cons]
          rw [String.toList_append, String.toList_append, List.append_assoc, List.append_assoc]
          exact readHexRows_hexByte b ' ' later

end

theorem readHexRows_unlines {rows : List (List UInt8)} (full : ∀ row ∈ rows, row ≠ []) :
    readHexRows (unlines (rows.map fun row => " ".intercalate (row.map hexByte))).toList =
      some rows := by
  induction rows with
  | nil => rfl
  | cons row rows ih =>
      have read := readHexRows_row (full row List.mem_cons_self)
        (ih fun other member => full other (List.mem_cons_of_mem _ member))
      rw [unlines] at read ⊢
      rw [List.map_cons, List.map_cons, String.join_cons, String.toList_append,
        String.toList_append, List.append_assoc]
      exact read

/-- Rows of sixteen, of which the last may be shorter. -/
structure HexLayout (rows : List (List UInt8)) : Prop where
  full : ∀ row ∈ rows.dropLast, row.length = 16
  last : ∀ row ∈ rows.getLast?, 1 ≤ row.length ∧ row.length ≤ 16

theorem hexLayout_hexRows (bytes : List UInt8) : HexLayout (hexRows bytes) := by
  fun_induction hexRows bytes with
  | case1 bytes empty => exact ⟨nofun, nofun⟩
  | case2 bytes some ih =>
      have nonempty : 0 < bytes.length := List.length_pos_iff.2 (by simpa using some)
      have length : (bytes.take hexColumns).length = min 16 bytes.length := List.length_take
      cases later : hexRows (bytes.drop hexColumns) with
      | nil =>
          refine ⟨nofun, ?_⟩
          rw [List.getLast?_singleton]
          intro row last
          rw [← Option.some.inj last, length]
          omega
      | cons row rows =>
          -- There is a row behind this one, so there are bytes beyond the first sixteen.
          have more : 16 < bytes.length := by
            by_contra few
            have nothing : bytes.drop hexColumns = [] := List.drop_eq_nil_of_le (Nat.not_lt.1 few)
            rw [nothing, hexRows] at later
            cases later
          rw [later] at ih
          refine ⟨?_, ih.last⟩
          rw [List.dropLast_cons_cons]
          refine List.forall_mem_cons.2 ⟨?_, ih.full⟩
          rw [length]
          omega

theorem flatten_hexRows (bytes : List UInt8) : (hexRows bytes).flatten = bytes := by
  fun_induction hexRows bytes with
  | case1 bytes empty => exact (List.isEmpty_iff.1 empty).symm
  | case2 bytes some ih => rw [List.flatten_cons, ih, List.take_append_drop]

theorem HexLayout.ne_nil {rows : List (List UInt8)} (h : HexLayout rows) :
    ∀ row ∈ rows, row ≠ [] := by
  rintro row member rfl
  rcases List.eq_nil_or_concat' rows with rfl | ⟨front, last, rfl⟩
  · cases member
  · rcases List.mem_append.1 member with before | here
    · have length := h.full [] (by rwa [List.dropLast_concat])
      cases length
    · have length := h.last last (by rw [List.getLast?_concat]; rfl)
      rw [← List.mem_singleton.1 here] at length
      cases length.1

/-- A dump is read back in its rows. -/
theorem readHexRows_hexText (bytes : List UInt8) :
    readHexRows (hexText bytes).toList = some (hexRows bytes) :=
  readHexRows_unlines (hexLayout_hexRows bytes).ne_nil

end RelayLogic
