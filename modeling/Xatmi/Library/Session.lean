import Xatmi.Switchboard.Memory

/-!
# The client library's side of a connection

The globals of the library and the functions of `tx_io.c` with which it talks to the switchboard.
A session holds the bytes that the switchboard has written and the library has not read yet; the
stream ends behind them.  How `read` cuts the stream into pieces makes no difference to `tx_read`,
which asks again until it has all it wants.
-/

namespace Xatmi
namespace Library

/-- Return code of the `tx_` functions for success. -/
def TX_OK : BitVec 32 := 0

/-- Return code of the `tx_` functions for failure. -/
def TX_FAIL : BitVec 32 := -7

/-- The state a library call works on. -/
structure Session where
  /-- Bytes still to be read from the switchboard. -/
  input : Bytes
  /-- Bytes written to the switchboard. -/
  output : Bytes := []
  /-- Whether `write` still takes bytes. -/
  writable : Bool := true
  tperrno : BitVec 32 := 0
  tpurcode : BitVec 64 := 0
  deriving DecidableEq

/-- A piece of the library's code. -/
abbrev Lib := StateM Session

/-- `tx_write`. -/
def txWrite (val : Bytes) : Lib (BitVec 32) := do
  let session ← get
  if session.writable then do
    set { session with output := session.output ++ val }
    pure TX_OK
  else
    pure TX_FAIL

/-- `tx_writeb`. -/
def txWriteb (val : Byte) : Lib (BitVec 32) :=
  txWrite [val]

/-- `tx_writes`. -/
def txWrites (val : BitVec 16) : Lib (BitVec 32) := do
  if (← txWriteb ((val &&& 0xFF).setWidth 8)) = TX_OK then
    if (← txWriteb ((val >>> 8).setWidth 8)) = TX_OK then pure TX_OK else pure TX_FAIL
  else
    pure TX_FAIL

/-- `tx_writel`. -/
def txWritel (val : BitVec 64) : Lib (BitVec 32) := do
  if (← txWrites ((val &&& 0xFFFF).setWidth 16)) = TX_OK then
    if (← txWrites ((val >>> 16).setWidth 16)) = TX_OK then pure TX_OK else pure TX_FAIL
  else
    pure TX_FAIL

/-- `tx_read`: what was stored in the buffer, and the return code. -/
def txRead (len : Int) : Lib (Bytes × BitVec 32) := do
  let session ← get
  let got := session.input.take len.toNat
  set { session with input := session.input.drop len.toNat }
  pure (got, if got.length = len.toNat then TX_OK else TX_FAIL)

/-- `(tpurcode = call) == TX_OK`. -/
def succeeds (call : Lib (BitVec 32)) : Lib Bool := do
  let code ← call
  modify fun session => { session with tpurcode := code.signExtend 64 }
  pure (code = TX_OK)

/-- Assign `tperrno`. -/
def setErrno (errno : BitVec 32) : Lib PUnit :=
  modify fun session => { session with tperrno := errno }

/-- `tprealloc` as the library calls it; `none` is a pointer that is no tp buffer. -/
def tprealloc (data : Option Bytes) (size : Int) : Lib (Option Bytes) := do
  match data with
  | none => do
      setErrno (BitVec.ofNat 32 TPEINVAL)
      pure none
  | some contents =>
      if size < 0 then do
        setErrno (BitVec.ofNat 32 TPEINVAL)
        pure none
      else
        pure (some (Switchboard.resize contents size.toNat))

/-! ## Execution -/

section Execution

variable {α β : Type}

theorem bind_run (first : Lib α) (rest : α → Lib β) (session : Session) :
    (first >>= rest) session = rest (first session).1 (first session).2 := rfl

theorem pure_run (value : α) (session : Session) :
    (pure value : Lib α) session = (value, session) := rfl

theorem setErrno_run (errno : BitVec 32) (session : Session) :
    setErrno errno session = (⟨⟩, { session with tperrno := errno }) := rfl

theorem succeeds_run (call : Lib (BitVec 32)) (session : Session) :
    succeeds call session =
      (decide ((call session).1 = TX_OK),
        { (call session).2 with tpurcode := (call session).1.signExtend 64 }) := rfl

theorem txWrite_run {session : Session} (writable : session.writable = true) (val : Bytes) :
    txWrite val session = (TX_OK, { session with output := session.output ++ val }) := by
  simp only [txWrite, bind_run]
  change (if session.writable = true then _ else _ : Lib (BitVec 32)) session = _
  rw [if_pos writable]
  rfl

theorem txWrites_run {session : Session} (writable : session.writable = true) (val : BitVec 16) :
    txWrites val session =
      (TX_OK, { session with output := session.output ++ shortBytes val }) := by
  have mask : ∀ byte : Byte, byte &&& 0xFF#8 = byte := by decide
  simp [txWrites, txWriteb, bind_run, pure_run, txWrite_run, writable, shortBytes, mask]

theorem txWritel_run {session : Session} (writable : session.writable = true) (val : BitVec 64) :
    txWritel val session =
      (TX_OK, { session with output := session.output ++ longBytes val }) := by
  have mask : ∀ short : BitVec 16, short &&& 0xFFFF#16 = short := fun _ => BitVec.and_allOnes
  simp [txWritel, bind_run, pure_run, txWrites_run, writable, longBytes, mask]

/-- `tx_read` of bytes that are there. -/
theorem txRead_run {session : Session} {piece rest : Bytes} {len : Int}
    (available : session.input = piece ++ rest) (exact : piece.length = len.toNat) :
    txRead len session = ((piece, TX_OK), { session with input := rest }) := by
  change ((session.input.take len.toNat, if (session.input.take len.toNat).length = len.toNat then
    TX_OK else TX_FAIL), { session with input := session.input.drop len.toNat }) = _
  simp [available, ← exact]

end Execution

end Library
end Xatmi
