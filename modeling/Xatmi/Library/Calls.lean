import Xatmi.Library.Session
import Xatmi.Lib.Words

/-!
# Calls of the client library

`tpadvertise`, `tpunadvertise`, `tpacall`, and what the worker calls, `tpservice` and `tpreturn`.
-/

namespace Xatmi
namespace Library

/-- `tperrno = errno; return -1`. -/
def fails (errno : BitVec 32) : Lib (BitVec 32) := do
  setErrno errno
  pure (-1)

/-! ## `tpadvertise.c` -/

/-- The writes of `tpadvertise`. -/
def askAdvertise (svcname : Bytes) (func : BitVec 64) : Lib Bool :=
  succeeds (txWriteb TPTADVT) <&&> succeeds (txWrite (svcname.take XATMI_SERVICE_NAME_LENGTH)) <&&>
    succeeds (txWritel func)

/-- The answer to `tpadvertise` and `tpunadvertise`: an error code, or zero. -/
def readCode : Lib (BitVec 32) := do
  let (buf, code) ← txRead IOSHORT
  if !(← succeeds (pure code)) then
    fails (BitVec.ofNat 32 TPESYSTEM)
  else if toshort buf ≠ 0 then
    fails ((toshort buf).setWidth 32)
  else
    pure 0

/-- `tpadvertise`; `none` stands for a null name. -/
def tpadvertise (svcname : Option Bytes) (func : BitVec 64) : Lib (BitVec 32) := do
  match svcname with
  | none => fails (BitVec.ofNat 32 TPEINVAL)
  | some svcname =>
      if func = 0 then
        fails (BitVec.ofNat 32 TPEINVAL)
      else if !(← askAdvertise svcname func) then
        fails (BitVec.ofNat 32 TPESYSTEM)
      else
        readCode

/-! ## `tpunadvertise.c` -/

/-- The writes of `tpunadvertise`. -/
def askUnadvertise (svcname : Bytes) : Lib Bool :=
  succeeds (txWriteb TPTUADV) <&&> succeeds (txWrite (svcname.take XATMI_SERVICE_NAME_LENGTH))

/-- `tpunadvertise`; `none` stands for a null name. -/
def tpunadvertise (svcname : Option Bytes) : Lib (BitVec 32) := do
  match svcname with
  | none => fails (BitVec.ofNat 32 TPEINVAL)
  | some svcname =>
      if !(← askUnadvertise svcname) then
        fails (BitVec.ofNat 32 TPESYSTEM)
      else
        readCode

/-! ## `tpacall.c` -/

/-- The writes of `tpacall` in front of the data. -/
def askCall (svc : Bytes) (len flags : BitVec 64) : Lib Bool :=
  succeeds (txWriteb TPTCALL) <&&> succeeds (txWrite (svc.take XATMI_SERVICE_NAME_LENGTH)) <&&>
    succeeds (txWritel len) <&&> succeeds (txWritel flags)

/-- `tx_write(data, len)`, where `none` stands for a null pointer. The length is cut to an `int`.
For a negative one `write` returns -1, which `tx_write` compares with the length. -/
def writeData (data : Option Bytes) (len : BitVec 64) : Lib (BitVec 32) :=
  let len := (len.setWidth 32).toInt
  if len < 0 then
    pure (if len = -1 then TX_OK else TX_FAIL)
  else
    match data with
    | none => if len = 0 then txWrite [] else pure TX_FAIL
    | some contents => txWrite (contents.take len.toNat)

/-- `tpacall` once its request is written: the data is sent only if the answer is okay. -/
def sendData (data : Option Bytes) (len : BitVec 64) : Lib (BitVec 32) := do
  let (buf, code) ← txRead (1 + IOSHORT)
  if !(← succeeds (pure code)) then
    fails (BitVec.ofNat 32 TPESYSTEM)
  else if buf.getD 0 0 ≠ 0 then
    fails ((toshort (buf.drop 1)).setWidth 32)
  else if !(← succeeds (writeData data len)) then
    fails (BitVec.ofNat 32 TPESYSTEM)
  else
    pure ((toshort (buf.drop 1)).setWidth 32)

/-- `tpacall`; `none` stands for a null pointer. -/
def tpacall (svc data : Option Bytes) (len flags : BitVec 64) : Lib (BitVec 32) := do
  match svc with
  | none => fails (BitVec.ofNat 32 TPEINVAL)
  | some svc =>
      if !(← askCall svc len flags) then
        fails (BitVec.ofNat 32 TPESYSTEM)
      else
        sendData data len

/-! ## `tpreturn.c` -/

/-- `tpreturn`, which says whether it has left the service routine. `_tp_longjmp_okay` is set as
long as `tpservice` runs a service routine. -/
def tpreturn (longjmpOkay : Bool) (rval : BitVec 32) (rcode : BitVec 64) (data : Option Bytes)
    (len _flags : BitVec 64) : Lib Bool := do
  if longjmpOkay then do
    let _ ← txWriteb TPTRETN
    let _ ← txWriteb ((if rval ≠ TPFAIL ∧ rval ≠ TPSUCCESS then TPFAIL else rval).setWidth 8)
    let _ ← txWritel rcode
    match data with
    | none => do
        let _ ← txWritel 0
        pure true
    | some contents => do
        let _ ← txWritel len
        let _ ← writeData (some contents) len
        pure true
  else
    pure false

/-- A `TPSVCINFO` on a machine with 64-bit longs and pointers: `name` at its start, `len`, `flags`
and `cd` at offsets 24, 32 and 40. The pointer at offset 16 is kept apart. -/
structure TPSVCINFO where
  memory : Words.Cells
  /-- What `data` points to. -/
  data : Option Bytes

namespace TPSVCINFO

def name (svcinfo : TPSVCINFO) : Bytes :=
  Words.bytes svcinfo.memory 0 XATMI_SERVICE_NAME_LENGTH

def len (svcinfo : TPSVCINFO) : BitVec 64 :=
  Words.load svcinfo.memory 24

def flags (svcinfo : TPSVCINFO) : BitVec 64 :=
  Words.load svcinfo.memory 32

/-- An `int` of four bytes, low byte first. -/
def cd (svcinfo : TPSVCINFO) : BitVec 32 :=
  (tolong (Words.bytes svcinfo.memory 40 4)).setWidth 32

/-- Assign `cd`, an `int`, from an unsigned short. -/
def setCd (svcinfo : TPSVCINFO) (cd : BitVec 16) : TPSVCINFO :=
  { svcinfo with memory := Words.copy svcinfo.memory 40 (shortBytes cd ++ [0, 0]) }

/-- Convert the fields in place, from the end of the structure towards its start. -/
def convert (svcinfo : TPSVCINFO) : TPSVCINFO :=
  let svcinfo := svcinfo.setCd
    (toshort (Words.bytes svcinfo.memory (XATMI_SERVICE_NAME_LENGTH + IOLONG * 2) IOSHORT))
  let svcinfo := { svcinfo with
    memory := Words.store svcinfo.memory 32
      (tolong (Words.bytes svcinfo.memory (XATMI_SERVICE_NAME_LENGTH + IOLONG) IOLONG)) }
  { svcinfo with
    memory := Words.store svcinfo.memory 24
      (tolong (Words.bytes svcinfo.memory XATMI_SERVICE_NAME_LENGTH IOLONG)) }

end TPSVCINFO

/-- `tpalloc` as the library calls it; memory never runs out. -/
def tpalloc (size : BitVec 64) : Lib (Option Bytes) := do
  if size.toInt < 0 then do
    setErrno (BitVec.ofNat 32 TPEINVAL)
    pure none
  else
    pure (some (List.replicate size.toNat 0))

/-- `tperrno = TPESYSTEM; svcinfo->cd = 0; return`. -/
def abandon (svcinfo : TPSVCINFO) : Lib (TPSVCINFO × Option (BitVec 64)) := do
  setErrno (BitVec.ofNat 32 TPESYSTEM)
  pure (svcinfo.setCd 0, none)

/-- `tpservice` up to the call of the service routine: the address it is going to call, if any. -/
def fetchService (svcinfo : TPSVCINFO) : Lib (TPSVCINFO × Option (BitVec 64)) := do
  let _ ← txWriteb TPTWORK
  let (address, code) ← txRead IOLONG
  if !(← succeeds (pure code)) then
    abandon svcinfo
  else do
    let (fixed, code) ← txRead ↑(XATMI_SERVICE_NAME_LENGTH + IOLONG * 2 + IOSHORT)
    let svcinfo := { svcinfo with memory := Words.copy svcinfo.memory 0 fixed }
    if !(← succeeds (pure code)) then
      abandon svcinfo
    else do
      let svcinfo := svcinfo.convert
      let data ← tpalloc svcinfo.len
      let (got, code) ← txRead (svcinfo.len.setWidth 32).toInt
      let svcinfo :=
        { svcinfo with data := data.map fun contents => got ++ contents.drop got.length }
      if !(← succeeds (pure code)) then
        abandon svcinfo
      else
        pure (svcinfo, some (tolong address))

/-- The end of a call of `tpservice`. -/
inductive Ending
  | returned (svcinfo : TPSVCINFO)
  /-- The assertion of `tpfree` that its argument is not null has failed. -/
  | aborted

/-- They fell out of the service routine. -/
def fellOut : Lib Unit := do
  let _ ← txWriteb TPTRETN
  let _ ← txWriteb (TPERRNO.setWidth 8)
  let _ ← txWritel (BitVec.ofNat 64 TPESVCERR)
  let _ ← txWritel 0

/-- `tpservice` from the call of the service routine on. The code at each address is given by
`routine`, which says whether `tpreturn` has left it. -/
def callService (routine : BitVec 64 → TPSVCINFO → Lib Bool) (func : BitVec 64)
    (svcinfo : TPSVCINFO) : Lib Ending := do
  if !(← routine func svcinfo) then
    fellOut
  match svcinfo.data with
  | none => pure .aborted
  | some _ => pure (.returned { svcinfo with data := none })

/-- `tpservice`; `none` stands for a null argument, with which it does nothing. -/
def tpservice (routine : BitVec 64 → TPSVCINFO → Lib Bool) (svcinfo : Option TPSVCINFO) :
    Lib (Option Ending) := do
  match svcinfo with
  | none => pure none
  | some svcinfo =>
      match ← fetchService svcinfo with
      | (svcinfo, none) => pure (some (.returned svcinfo))
      | (svcinfo, some func) => do
          let ending ← callService routine func svcinfo
          pure (some ending)

/-! ## Execution -/

/-- The state in which `tpadvertise` waits for its answer. -/
def Session.advertising (session : Session) (svcname : Bytes) (func : BitVec 64) : Session :=
  { session with
    output := session.output ++ ([TPTADVT] ++ svcname.take XATMI_SERVICE_NAME_LENGTH ++
      longBytes func)
    tpurcode := 0 }

theorem tpadvertise_run {session : Session} {func : BitVec 64} (nonnull : func ≠ 0)
    (writable : session.writable = true) (svcname : Bytes) :
    tpadvertise (some svcname) func session = readCode (session.advertising svcname func) := by
  have asked : askAdvertise svcname func session = (true, session.advertising svcname func) := by
    simp [askAdvertise, andM, bind_run, succeeds_run, txWriteb, txWrite_run, txWritel_run,
      writable, TX_OK, toBool, Session.advertising]
  simp only [tpadvertise, if_neg nonnull, bind_run, asked, Bool.not_true, Bool.false_eq_true,
    ↓reduceIte]

theorem tpadvertise_null (svcname : Option Bytes) (session : Session) :
    (tpadvertise svcname 0 session).1 = -1 := by
  cases svcname <;> rfl

theorem readCode_run {session : Session} {code : BitVec 16} {more : Bytes}
    (available : session.input = shortBytes code ++ more) :
    readCode session = (if code = 0 then 0 else -1,
      { session with
        input := more
        tpurcode := 0
        tperrno := if code = 0 then session.tperrno else code.setWidth 32 }) := by
  have read : txRead IOSHORT session = ((shortBytes code, TX_OK), { session with input := more }) :=
    txRead_run available rfl
  simp only [readCode, bind_run, read, succeeds_run, pure_run, decide_true, Bool.not_true,
    Bool.false_eq_true, ↓reduceIte, toshort_shortBytes]
  by_cases zero : code = 0
  · rw [if_neg (not_not.mpr zero), if_pos zero, if_pos zero]
    rfl
  · rw [if_pos zero, if_neg zero, if_neg zero]
    rfl

/-- The state in which `tpunadvertise` waits for its answer. -/
def Session.withdrawing (session : Session) (svcname : Bytes) : Session :=
  { session with
    output := session.output ++ ([TPTUADV] ++ svcname.take XATMI_SERVICE_NAME_LENGTH)
    tpurcode := 0 }

theorem tpunadvertise_run {session : Session} (writable : session.writable = true)
    (svcname : Bytes) :
    tpunadvertise (some svcname) session = readCode (session.withdrawing svcname) := by
  have asked : askUnadvertise svcname session = (true, session.withdrawing svcname) := by
    simp [askUnadvertise, andM, bind_run, succeeds_run, txWriteb, txWrite_run, writable, TX_OK,
      toBool, Session.withdrawing]
  simp only [tpunadvertise, bind_run, asked, Bool.not_true, Bool.false_eq_true, ↓reduceIte]

theorem readCode_output (session : Session) : (readCode session).2.output = session.output := by
  simp only [readCode, bind_run]
  split
  · rfl
  · split <;> rfl

/-- The state in which `tpacall` waits for its answer. -/
def Session.calling (session : Session) (svc : Bytes) (len flags : BitVec 64) : Session :=
  { session with
    output := session.output ++
      ([TPTCALL] ++ svc.take XATMI_SERVICE_NAME_LENGTH ++ longBytes len ++ longBytes flags)
    tpurcode := 0 }

theorem tpacall_run {session : Session} (writable : session.writable = true) (svc : Bytes)
    (data : Option Bytes) (len flags : BitVec 64) :
    tpacall (some svc) data len flags session = sendData data len
      (session.calling svc len flags) := by
  have asked : askCall svc len flags session = (true, session.calling svc len flags) := by
    simp [askCall, andM, bind_run, succeeds_run, txWriteb, txWrite_run, txWritel_run,
      writable, TX_OK, toBool, Session.calling]
  simp only [tpacall, bind_run, asked, Bool.not_true, Bool.false_eq_true, ↓reduceIte]

section Answer

variable {session : Session} {status : Byte} {code : BitVec 16} {more : Bytes}

theorem sendData_refused {data : Option Bytes} {len : BitVec 64} (refused : status ≠ 0)
    (available : session.input = status :: shortBytes code ++ more) :
    sendData data len session =
      (-1, { session with input := more, tpurcode := 0, tperrno := code.setWidth 32 }) := by
  have read : txRead (1 + IOSHORT) session =
      ((status :: shortBytes code, TX_OK), { session with input := more }) :=
    txRead_run available rfl
  simp only [sendData, bind_run, read, succeeds_run, pure_run, decide_true, Bool.not_true,
    Bool.false_eq_true, ↓reduceIte, List.getD_cons_zero, List.drop_succ_cons, List.drop_zero,
    toshort_shortBytes, if_pos refused]
  rfl

/-- A call that is accepted sends its data and returns the descriptor. -/
theorem sendData_accepted {data : Option Bytes} {bytes : Bytes} {len : BitVec 64}
    (writable : session.writable = true) (writes : writeData data len = txWrite bytes)
    (available : session.input = 0 :: shortBytes code ++ more) :
    sendData data len session = (code.setWidth 32,
      { session with
        input := more
        output := session.output ++ bytes
        tpurcode := 0 }) := by
  have read : txRead (1 + IOSHORT) session = ((0 :: shortBytes code, TX_OK),
      { session with input := more }) :=
    txRead_run available rfl
  have wrote : txWrite bytes { session with input := more, tpurcode := TX_OK.signExtend 64 } =
      (TX_OK, { session with
        input := more
        output := session.output ++ bytes
        tpurcode := TX_OK.signExtend 64 }) := by
    refine txWrite_run ?_ _
    exact writable
  simp only [sendData, bind_run, read, succeeds_run, pure_run, decide_true, Bool.not_true,
    Bool.false_eq_true, ↓reduceIte, List.getD_cons_zero, List.drop_succ_cons, List.drop_zero,
    toshort_shortBytes, ne_eq, not_true_eq_false, writes, wrote]
  rfl

end Answer

/-- The fixed part of a work frame behind the address. -/
def workHeader (svcname : Bytes) (len flags : BitVec 64) (cd : BitVec 16) : Bytes :=
  svcname ++ longBytes len ++ longBytes flags ++ shortBytes cd

section Decoding

variable {svcname : Bytes} {len flags : BitVec 64} {cd : BitVec 16}

theorem length_workHeader (full : svcname.length = XATMI_SERVICE_NAME_LENGTH) :
    (workHeader svcname len flags cd).length =
      XATMI_SERVICE_NAME_LENGTH + IOLONG * 2 + IOSHORT := by
  simp only [workHeader, List.length_append, full, length_longBytes, length_shortBytes]
  rfl

theorem bytes_workHeader (memory : Words.Cells)
    (full : svcname.length = XATMI_SERVICE_NAME_LENGTH) :
    let received := Words.copy memory 0 (workHeader svcname len flags cd)
    Words.bytes received 0 15 = svcname ∧ Words.bytes received 15 4 = longBytes len ∧
      Words.bytes received 19 4 = longBytes flags ∧ Words.bytes received 23 2 = shortBytes cd := by
  intro received
  have piece : ∀ k n, k + n ≤ 25 →
      Words.bytes received k n = ((workHeader svcname len flags cd).drop k).take n := by
    intro k n inside
    have read : Words.bytes received (0 + k) n = _ :=
      Words.bytes_copy (by rw [length_workHeader full]; exact inside)
    rwa [Nat.zero_add] at read
  have full : svcname.length = 15 := full
  have skip : ∀ k rest, (svcname ++ rest).drop (15 + k) = rest.drop k := fun k rest => by
    rw [← full, List.drop_append, List.drop_of_length_le (by omega), List.nil_append,
      Nat.add_sub_cancel_left]
  simp only [workHeader, List.append_assoc] at piece
  refine ⟨?_, ?_, ?_, ?_⟩
  · rw [piece 0 15 (by omega), List.drop_zero, ← full, List.take_left]
  · rw [piece 15 4 (by omega), skip 0]
    rfl
  · rw [piece 19 4 (by omega), skip 4]
    rfl
  · rw [piece 23 2 (by omega), skip 8]
    rfl

theorem convert_spec (memory : Words.Cells) (data : Option Bytes)
    (full : svcname.length = XATMI_SERVICE_NAME_LENGTH) :
    let svcinfo := TPSVCINFO.convert ⟨Words.copy memory 0 (workHeader svcname len flags cd), data⟩
    svcinfo.name = svcname ∧ svcinfo.len = wire len ∧ svcinfo.flags = wire flags ∧
      svcinfo.cd = cd.setWidth 32 := by
  intro svcinfo
  obtain ⟨name, length, flag, descriptor⟩ := @bytes_workHeader svcname len flags cd memory full
  set m₀ := Words.copy memory 0 (workHeader svcname len flags cd)
  set m₁ := Words.copy m₀ 40 (shortBytes (toshort (Words.bytes m₀ 23 2)) ++ [0, 0]) with m₁_eq
  set m₂ := Words.store m₁ 32 (tolong (Words.bytes m₁ 19 4)) with m₂_eq
  have converted : svcinfo.memory = Words.store m₂ 24 (tolong (Words.bytes m₂ 15 4)) := rfl
  have low₁ : ∀ i, i < 40 → m₁ i = m₀ i := fun i low => Words.copy_of_outside (.inl low)
  have low₂ : ∀ i, i < 32 → m₂ i = m₀ i := fun i low =>
    (Words.store_of_outside (.inl low)).trans (low₁ i (by omega))
  have low₃ : ∀ i, i < 24 → svcinfo.memory i = m₀ i := fun i low => by
    rw [converted, Words.store_of_outside (.inl low), low₂ i (by omega)]
  refine ⟨?_, ?_, ?_, ?_⟩
  · rw [← name]
    exact Words.bytes_congr fun i _ upper => low₃ i (upper.trans (by decide))
  · rw [TPSVCINFO.len, converted, Words.load_store,
      Words.bytes_congr fun i _ upper => low₂ i (by omega), length, tolong_longBytes]
  · rw [TPSVCINFO.flags, converted, Words.load_store_of_apart (.inr (by omega)), m₂_eq,
      Words.load_store, Words.bytes_congr fun i _ upper => low₁ i (by omega), flag,
      tolong_longBytes]
  · have kept : Words.bytes svcinfo.memory 40 4 = Words.bytes m₁ 40 4 := by
      refine Words.bytes_congr fun i lower _ => ?_
      rw [converted, Words.store_of_outside (.inr (by omega)), m₂_eq,
        Words.store_of_outside (.inr (by omega))]
    have read : Words.bytes m₁ (40 + 0) 4 = shortBytes (toshort (Words.bytes m₀ 23 2)) ++ [0, 0] :=
      Words.bytes_copy (Nat.le_refl 4)
    rw [descriptor, toshort_shortBytes, Nat.add_zero] at read
    have high : toshort [0, 0] = 0 := by decide
    have rest : (shortBytes cd ++ [0, 0]).drop 2 = [0, 0] := rfl
    rw [TPSVCINFO.cd, kept, read, tolong, toshort_shortBytes_append, rest, high,
      setWidth_signExtend]
    simp

/-- `tpservice` reads a work frame to its end and decodes it. -/
theorem fetchService_run {session : Session} {func : BitVec 64} {data more : Bytes}
    (svcinfo : TPSVCINFO) (writable : session.writable = true)
    (full : svcname.length = XATMI_SERVICE_NAME_LENGTH) (short : data.length < 2 ^ 31)
    (available : session.input = longBytes func ++
      (workHeader svcname (BitVec.ofNat 64 data.length) flags cd ++ (data ++ more))) :
    ∃ filled : TPSVCINFO,
      fetchService svcinfo session = ((filled, some (wire func)),
        { session with input := more, output := session.output ++ [TPTWORK], tpurcode := 0 }) ∧
      filled.name = svcname ∧ filled.len = BitVec.ofNat 64 data.length ∧ filled.flags = wire flags ∧
      filled.cd = cd.setWidth 32 ∧ filled.data = some data := by
  set header := workHeader svcname (BitVec.ofNat 64 data.length) flags cd with header_eq
  set converted :=
    TPSVCINFO.convert ⟨Words.copy svcinfo.memory 0 header, svcinfo.data⟩ with converted_eq
  obtain ⟨name, len, flag, descriptor⟩ : converted.name = svcname ∧ converted.len = _ ∧
      converted.flags = wire flags ∧ converted.cd = cd.setWidth 32 :=
    convert_spec svcinfo.memory svcinfo.data full
  rw [wire_ofNat short] at len
  have wide : (BitVec.ofNat 64 data.length).toInt = data.length := by
    rw [BitVec.toInt_eq_toNat_of_lt] <;> simp only [BitVec.toNat_ofNat] <;> omega
  have narrow : ((BitVec.ofNat 64 data.length).setWidth 32).toInt = data.length := by
    rw [BitVec.setWidth_ofNat_of_le (by omega), BitVec.toInt_eq_toNat_of_lt] <;>
      simp only [BitVec.toNat_ofNat] <;> omega
  obtain ⟨asked, asked_eq⟩ : ∃ asked : Session,
      asked = { session with output := session.output ++ [TPTWORK] } :=
    ⟨_, rfl⟩
  have first : txRead IOLONG asked =
      ((longBytes func, TX_OK), { asked with input := header ++ (data ++ more) }) :=
    txRead_run (asked_eq ▸ available) rfl
  have second : txRead ↑(XATMI_SERVICE_NAME_LENGTH + IOLONG * 2 + IOSHORT)
      { asked with input := header ++ (data ++ more), tpurcode := TX_OK.signExtend 64 } =
        ((header, TX_OK), { asked with input := data ++ more, tpurcode := TX_OK.signExtend 64 }) :=
    txRead_run rfl (length_workHeader full)
  have third : txRead data.length
      { asked with input := data ++ more, tpurcode := TX_OK.signExtend 64 } = ((data, TX_OK),
      { asked with input := more, tpurcode := TX_OK.signExtend 64 }) :=
    txRead_run rfl rfl
  have allocates : ∀ s, tpalloc (BitVec.ofNat 64 data.length) s =
      (some (List.replicate (BitVec.ofNat 64 data.length).toNat 0), s) := by
    intro s
    simp only [tpalloc, wide]
    rw [if_neg (by omega)]
    rfl
  refine ⟨{ converted with data := some data }, ?_, name, len, flag, descriptor, rfl⟩
  simp only [fetchService, bind_run, txWriteb, txWrite_run writable, ← asked_eq, first,
    succeeds_run, pure_run, decide_true, Bool.not_true, Bool.false_eq_true, ↓reduceIte, second,
    ← converted_eq, len, allocates, narrow, third]
  have covered : (List.replicate (BitVec.ofNat 64 data.length).toNat (0 : Byte)).drop data.length =
      [] := by
    apply List.drop_eq_nil_of_le
    simp only [List.length_replicate, BitVec.toNat_ofNat]
    exact Nat.mod_le _ _
  rw [Option.map_some, covered, List.append_nil, tolong_longBytes, asked_eq]
  rfl

end Decoding

end Library
end Xatmi
