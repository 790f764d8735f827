import Xatmi.ByteOrder
import Xatmi.Lib.Words
import Mathlib.Data.List.TakeWhile

/-!
# Dumping bytes

`dump` prints a piece of memory in lines: printable bytes as they are, the others as a backslash and
two hexadecimal digits. A line is built in a buffer of a hundred bytes, and ends where the next byte
does not fit.
-/

namespace Xatmi
namespace Dump

/-- `sizeof buf`. -/
def LINE : Nat := 100

/-- What `dump` can do that C does not allow, or not end. -/
inductive Fault where
  | overrun
  | diverges
  deriving DecidableEq

/-- `buf` and `q - buf`. -/
structure Line where
  buf : Words.Cells
  q : Nat

/-- A line as `fprintf` gets it. -/
structure Printed where
  fd : BitVec 32
  msg : Bytes
  body : Bytes
  deriving DecidableEq

/-- `*q++ = byte`. -/
def Line.push (line : Line) (byte : Byte) : Except Fault Line :=
  if line.q < LINE then .ok ⟨Words.copy line.buf line.q [byte], line.q + 1⟩ else .error .overrun

/-- What `%.*s` prints of the buffer. -/
def Line.body (line : Line) : Bytes :=
  (Words.bytes line.buf 0 line.q).takeWhile (· ≠ 0)

/-- `*p` as an `int`; whether `char` is signed is up to the compiler. -/
def charValue (signed : Bool) (byte : Byte) : BitVec 32 :=
  if signed then byte.signExtend 32 else byte.setWidth 32

/-- `*p >= ' ' && *p <= '~'`. -/
def printable (signed : Bool) (byte : Byte) : Bool :=
  (BitVec.ofNat 32 ' '.toNat).sle (charValue signed byte) && (charValue signed byte).sle
    (BitVec.ofNat 32 '~'.toNat)

/-- `hex[i]`. -/
def hex (i : BitVec 32) : Byte :=
  ("0123456789ABCDEF".toList.map fun ch => BitVec.ofNat 8 ch.toNat).getD i.toNat 0

/-- The inner loop: what is left of the input, and the line. -/
def fillLine (signed : Bool) : Bytes → Line → Except Fault (Bytes × Line)
  | [], line => .ok ([], line)
  | byte :: rest, line =>
      if line.q < LINE then
        if printable signed byte then do
          fillLine signed rest (← line.push byte)
        else if line.q + 3 ≥ LINE then
          .ok (byte :: rest, line)
        else do
          let line ← line.push 0x5C
          let line ← line.push (hex ((charValue signed byte).sshiftRight 4 &&& 0x0f))
          let line ← line.push (hex (charValue signed byte &&& 0x0f))
          fillLine signed rest line
      else
        .ok (byte :: rest, line)

/-- The outer loop, given up after `bound` rounds. -/
def printLines (signed : Bool) (fd : BitVec 32) (msg : Bytes) :
    Nat → Bytes → Words.Cells → Except Fault (List Printed)
  | _, [], _ => .ok []
  | 0, _ :: _, _ => .error .diverges
  | bound + 1, byte :: rest, buf => do
      let (left, line) ← fillLine signed (byte :: rest) ⟨buf, 0⟩
      let lines ← printLines signed fd msg bound left line.buf
      pure (⟨fd, msg, line.body⟩ :: lines)

/-- `dump`, with what happens to be in `buf`. -/
def dump (signed : Bool) (buf : Words.Cells) (fd : BitVec 32) (msg p : Bytes) :
    Except Fault (List Printed) :=
  printLines signed fd msg p.length p buf

/-! ## Escapes -/

/-- How a byte is to be shown: itself when it is printable, otherwise a backslash and two
hexadecimal digits. -/
def escape (byte : Byte) : Bytes :=
  if 32 ≤ byte.toNat ∧ byte.toNat ≤ 126 then [byte]
  else 0x5C :: [byte.toNat / 16, byte.toNat % 16].map fun d =>
    BitVec.ofNat 8 (Nat.digitChar d).toUpper.toNat

variable {signed : Bool} {byte : Byte}

theorem printable_iff : printable signed byte = true ↔ 32 ≤ byte.toNat ∧ byte.toNat ≤ 126 := by
  have table : ∀ (signed : Bool) (byte : Byte),
      printable signed byte = decide (32 ≤ byte.toNat ∧ byte.toNat ≤ 126) := by decide +kernel
  rw [table, decide_eq_true_iff]

theorem escape_of_printable (shown : printable signed byte = true) : escape byte = [byte] :=
  if_pos (printable_iff.mp shown)

theorem escape_of_not_printable (hidden : ¬printable signed byte = true) : escape byte =
    [0x5C, hex ((charValue signed byte).sshiftRight 4 &&& 0x0f),
    hex (charValue signed byte &&& 0x0f)] := by
  have table : ∀ (signed : Bool) (byte : Byte),
      ([byte.toNat / 16, byte.toNat % 16].map fun d =>
        BitVec.ofNat 8 (Nat.digitChar d).toUpper.toNat) =
        [hex ((charValue signed byte).sshiftRight 4 &&& 0x0f),
          hex (charValue signed byte &&& 0x0f)] := by
    decide +kernel
  rw [escape, if_neg (mt printable_iff.mpr hidden), table signed byte]

theorem zero_not_mem_escape (byte : Byte) : (0 : Byte) ∉ escape byte := by
  revert byte
  decide +kernel

/-! ## Lines -/

/-- What has been stored in the line. -/
def Line.stored (line : Line) : Bytes :=
  Words.bytes line.buf 0 line.q

theorem length_stored (line : Line) : line.stored.length = line.q := by
  simp [Line.stored, Words.bytes]

theorem push_ok (line : Line) (room : line.q < LINE) (byte : Byte) :
    ∃ next : Line, line.push byte = .ok next ∧ next.q = line.q + 1 ∧
      next.stored = line.stored ++ [byte] := by
  refine ⟨_, if_pos room, rfl, ?_⟩
  simp only [Line.stored, Words.bytes_succ, Nat.zero_add]
  congr 1
  · exact Words.bytes_congr fun i _ before => Words.copy_of_outside (.inl (by omega))
  · simp [Words.copy]

theorem fillLine_ok (signed : Bool) (input : Bytes) (line : Line) (inside : line.q ≤ LINE) :
    ∃ piece rest next, fillLine signed input line = .ok (rest, next) ∧ input = piece ++ rest ∧
      next.stored = line.stored ++ piece.flatMap escape ∧ next.q ≤ LINE ∧
      (input ≠ [] → line.q + 3 < LINE → piece ≠ []) := by
  induction input generalizing line with
  | nil => exact ⟨[], [], line, rfl, rfl, by simp, inside, fun nonempty => absurd rfl nonempty⟩
  | cons byte rest ih =>
      simp only [fillLine]
      by_cases room : line.q < LINE
      · rw [if_pos room]
        by_cases shown : printable signed byte = true
        · obtain ⟨next, pushed, count, stored⟩ := push_ok line room byte
          obtain ⟨piece, left, last, filled, split, stored', inside', _⟩ := ih next (by omega)
          refine ⟨byte :: piece, left, last, ?_, by rw [split, List.cons_append], ?_, inside',
            fun _ _ => nofun⟩
          · rw [if_pos shown, pushed]
            exact filled
          · rw [stored', stored, List.flatMap_cons, escape_of_printable shown, List.append_assoc]
        · rw [if_neg shown]
          by_cases full : line.q + 3 ≥ LINE
          · rw [if_pos full]
            exact ⟨[], byte :: rest, line, rfl, rfl, by simp, inside, fun _ room =>
              absurd room (Nat.not_lt.mpr full)⟩
          · obtain ⟨first, pushed₁, count₁, stored₁⟩ := push_ok line room 0x5C
            obtain ⟨second, pushed₂, count₂, stored₂⟩ := push_ok first (by omega)
              (hex ((charValue signed byte).sshiftRight 4 &&& 0x0f))
            obtain ⟨third, pushed₃, count₃, stored₃⟩ := push_ok second (by omega)
              (hex (charValue signed byte &&& 0x0f))
            obtain ⟨piece, left, last, filled, split, stored', inside', _⟩ := ih third (by omega)
            refine ⟨byte :: piece, left, last, ?_, by rw [split, List.cons_append], ?_, inside',
              fun _ _ => nofun⟩
            · rw [if_neg full]
              simp only [pushed₁, pushed₂, pushed₃, bind, Except.bind]
              exact filled
            · rw [stored', stored₃, stored₂, stored₁, List.flatMap_cons,
                escape_of_not_printable shown]
              simp
      · rw [if_neg room]
        exact ⟨[], byte :: rest, line, rfl, rfl, by simp, inside, fun _ room' => by omega⟩

theorem body_of_stored {line : Line} {piece : Bytes} (stored : line.stored = piece.flatMap escape) :
    line.body = piece.flatMap escape := by
  have nonzero : ∀ byte ∈ piece.flatMap escape, byte ≠ 0 := by
    rintro byte member rfl
    obtain ⟨source, _, member⟩ := List.mem_flatMap.mp member
    exact zero_not_mem_escape source member
  change line.stored.takeWhile _ = _
  rw [stored, List.takeWhile_eq_self_iff]
  exact fun byte member => decide_eq_true (nonzero byte member)

theorem printLines_ok (signed : Bool) (fd : BitVec 32) (msg : Bytes) {bound : Nat} (input : Bytes)
    (buf : Words.Cells) (enough : input.length ≤ bound) :
    ∃ pieces : List Bytes, printLines signed fd msg bound input buf =
        .ok (pieces.map fun piece => ⟨fd, msg, piece.flatMap escape⟩) ∧
      pieces.flatten = input ∧ ∀ piece ∈ pieces, piece ≠ [] ∧
      (piece.flatMap escape).length ≤ LINE := by
  induction bound generalizing input buf with
  | zero =>
      obtain rfl := List.eq_nil_of_length_eq_zero (Nat.le_zero.mp enough)
      exact ⟨[], rfl, rfl, by simp⟩
  | succ bound ih =>
      cases input with
      | nil => exact ⟨[], rfl, rfl, by simp⟩
      | cons byte rest =>
          obtain ⟨piece, left, line, filled, split, stored, inside, taken⟩ :=
            fillLine_ok signed (byte :: rest) ⟨buf, 0⟩ (Nat.zero_le _)
          have nonempty : piece ≠ [] := taken nofun (show 0 + 3 < LINE by decide)
          have stored : line.stored = piece.flatMap escape := stored
          have shorter : left.length ≤ bound := by
            have := congrArg List.length split
            have := List.length_pos_iff.mpr nonempty
            simp only [List.length_cons, List.length_append] at *
            omega
          obtain ⟨pieces, printed, whole, proper⟩ := ih left line.buf shorter
          refine ⟨piece :: pieces, ?_, ?_, ?_⟩
          · simp only [printLines, filled, printed, body_of_stored stored, bind, Except.bind, pure,
              Except.pure, List.map_cons]
          · rw [List.flatten_cons, whole, split]
          · rintro other (_ | ⟨_, member⟩)
            · have length := length_stored line
              rw [stored] at length
              exact ⟨nonempty, length ▸ inside⟩
            · exact proper other member

/-- `dump` ends, stores inside its buffer, and prints the escapes of all bytes in order: every line
shows at least one byte and has at most a hundred characters, and no escape is split between
lines. -/
theorem dump_loses_nothing (signed : Bool) (buf : Words.Cells) (fd : BitVec 32) (msg p : Bytes) :
    ∃ (lines : List Printed) (pieces : List Bytes), dump signed buf fd msg p = .ok lines ∧
      lines = pieces.map (fun piece => ⟨fd, msg, piece.flatMap escape⟩) ∧ pieces.flatten = p ∧
      (∀ piece ∈ pieces, piece ≠ [] ∧ (piece.flatMap escape).length ≤ 100) ∧
      (lines.map Printed.body).flatten = p.flatMap escape := by
  obtain ⟨pieces, printed, whole, proper⟩ :=
    printLines_ok signed fd msg p buf (Nat.le_refl p.length)
  refine ⟨_, pieces, printed, rfl, whole, proper, ?_⟩
  rw [List.map_map, ← whole, List.flatMap_def, List.map_flatten, List.flatten_flatten, List.map_map]
  rfl

end Dump
end Xatmi
