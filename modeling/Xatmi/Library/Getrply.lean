import Xatmi.Library.Session
import Xatmi.Switchboard.Execution
import Xatmi.Switchboard.Scenario

/-!
# Replies as the client library reads them

`tpgetrply`, and how it reads the frames with which the switchboard answers a `TPTGRPLY`.  The
switchboard has two frame shapes, three bytes from `senderrno` and eleven with the reply's data from
`snd_reply`; the library tells them apart by the first byte.
-/

namespace Xatmi
namespace Library

open Program Switchboard

/-- What the three pointer arguments of `tpgetrply` point to. -/
structure Getrply where
  cd : BitVec 32
  /-- Contents of the caller's buffer; `none` is a pointer that is no tp buffer. -/
  data : Option Bytes
  len : BitVec 64
  deriving DecidableEq

/-- `tperrno = errno; return -1`. -/
def refuse (args : Option Getrply) (errno : BitVec 32) : Lib (BitVec 32 × Option Getrply) := do
  setErrno errno
  pure (-1, args)

/-- The three writes of `tpgetrply`. -/
def askReply (cd : BitVec 32) (flags : BitVec 64) : Lib Bool :=
  succeeds (txWriteb TPTGRPLY) <&&> succeeds (txWrites (cd.setWidth 16)) <&&>
    succeeds (txWritel flags)

/-- `if (*len) { *data = tprealloc(*data, *len); tx_read(*data, *len); }`; reading to a null pointer
fails before it consumes anything. -/
def readData (data : Option Bytes) (len : BitVec 64) : Lib (Option Bytes) := do
  if len = 0 then
    pure data
  else do
    match ← tprealloc data len.toInt with
    | none => pure none
    | some contents => do
        let (got, _) ← txRead (len.setWidth 32).toInt
        pure (some (got ++ contents.drop got.length))

/-- `tpgetrply` once the fixed part of a full reply is known to follow. -/
def readReply (call : Getrply) (status : Byte) (cd : BitVec 16) :
    Lib (BitVec 32 × Option Getrply) := do
  let (buf2, code) ← txRead (IOLONG + IOLONG)
  if !(← succeeds (pure code)) then
    refuse (some call) (BitVec.ofNat 32 TPESYSTEM)
  else do
    setErrno (if status = TPFAIL.setWidth 8 then BitVec.ofNat 32 TPESVCFAIL else 0)
    modify fun session => { session with tpurcode := tolong buf2 }
    let len := tolong (buf2.drop IOLONG)
    let data ← readData call.data len
    pure (cd.setWidth 32, some { cd := cd.setWidth 32, data, len })

/-- `tpgetrply` once its request is written. -/
def readAnswer (call : Getrply) : Lib (BitVec 32 × Option Getrply) := do
  let (buf1, code) ← txRead (1 + IOSHORT)
  if !(← succeeds (pure code)) then
    refuse (some call) (BitVec.ofNat 32 TPESYSTEM)
  else if buf1.getD 0 0 ≠ TPSUCCESS.setWidth 8 ∧ buf1.getD 0 0 ≠ TPFAIL.setWidth 8 then
    refuse (some call) ((toshort (buf1.drop 1)).setWidth 32)
  else
    readReply call (buf1.getD 0 0) (toshort (buf1.drop 1))

/-- `tpgetrply`; `none` stands for a null argument. -/
def tpgetrply (args : Option Getrply) (flags : BitVec 64) :
    Lib (BitVec 32 × Option Getrply) := do
  match args with
  | none => refuse args (BitVec.ofNat 32 TPEINVAL)
  | some call =>
      if call.len = 0 then
        refuse args (BitVec.ofNat 32 TPEINVAL)
      else if !(← askReply call.cd flags) then
        refuse args (BitVec.ofNat 32 TPESYSTEM)
      else
        readAnswer call

/-! ## Reading one frame -/

/-- The state in which the library waits for the answer to its `TPTGRPLY`. -/
def Session.asked (session : Session) (cd : BitVec 32) (flags : BitVec 64) : Session :=
  { session with
    output := session.output ++ [TPTGRPLY] ++ shortBytes (cd.setWidth 16) ++ longBytes flags
    tpurcode := 0 }

theorem askReply_run {session : Session} (writable : session.writable = true) (cd : BitVec 32)
    (flags : BitVec 64) : askReply cd flags session = (true, session.asked cd flags) := by
  simp [askReply, andM, bind_run, succeeds_run, txWriteb, txWrite_run, txWrites_run, txWritel_run,
    writable, TX_OK, toBool, Session.asked]

/-- A call with its arguments in order sends its request and reads the answer. -/
theorem tpgetrply_run {call : Getrply} {session : Session} (asks : call.len ≠ 0)
    (writable : session.writable = true) (flags : BitVec 64) :
    tpgetrply (some call) flags session = readAnswer call (session.asked call.cd flags) := by
  simp only [tpgetrply, if_neg asks, bind_run, askReply_run writable, Bool.not_true,
    Bool.false_eq_true, ↓reduceIte]

/-- A frame whose first byte announces no reply is read as three bytes with an error code. -/
theorem readAnswer_error {call : Getrply} {session : Session} {status : Byte} {errno : BitVec 16}
    {more : Bytes} (available : session.input = status :: shortBytes errno ++ more)
    (noReply : status ≠ TPSUCCESS.setWidth 8 ∧ status ≠ TPFAIL.setWidth 8) :
    readAnswer call session =
      ((-1, some call),
        { session with input := more, tpurcode := 0, tperrno := errno.setWidth 32 }) := by
  have first : txRead (1 + IOSHORT) session =
      ((status :: shortBytes errno, TX_OK), { session with input := more }) :=
    txRead_run available rfl
  simp only [readAnswer, bind_run, first, succeeds_run, pure_run, decide_true, Bool.not_true,
    Bool.false_eq_true, ↓reduceIte, List.getD_cons_zero, List.drop_succ_cons, List.drop_zero,
    toshort_shortBytes, if_pos noReply]
  rfl

theorem tolong_length {len : Nat} (short : len < 2 ^ 31) (rest : Bytes) :
    tolong (longBytes ((BitVec.ofNat 32 len).signExtend 64) ++ rest) = BitVec.ofNat 64 len := by
  have positive : (BitVec.ofNat 32 len).msb = false := by
    rw [BitVec.msb_eq_false_iff_two_mul_lt]
    simp only [BitVec.toNat_ofNat]
    omega
  rw [tolong_longBytes_append, BitVec.signExtend_eq_setWidth_of_msb_false positive]
  rw [BitVec.setWidth_setWidth_of_le _ (by omega), BitVec.setWidth_eq]
  rw [BitVec.signExtend_eq_setWidth_of_msb_false positive]
  apply BitVec.eq_of_toNat_eq
  simp only [BitVec.toNat_setWidth, BitVec.toNat_ofNat]
  omega

theorem readData_run {session : Session} {buffer contents more : Bytes}
    (short : contents.length < 2 ^ 31) (available : session.input = contents ++ more) :
    readData (some buffer) (BitVec.ofNat 64 contents.length) session =
      (some (if contents = [] then buffer else contents), { session with input := more }) := by
  by_cases empty : contents = []
  · subst empty
    obtain rfl : more = session.input := available.symm
    simp only [List.length_nil, readData, ↓reduceIte]
    rfl
  · have positive : 0 < contents.length := List.length_pos_iff.mpr empty
    have nonzero : BitVec.ofNat 64 contents.length ≠ 0 := by
      intro zero
      have := congrArg BitVec.toNat zero
      simp only [BitVec.toNat_ofNat, BitVec.ofNat_eq_ofNat] at this
      omega
    have wide : (BitVec.ofNat 64 contents.length).toInt = contents.length := by
      rw [BitVec.toInt_eq_toNat_of_lt] <;> simp only [BitVec.toNat_ofNat] <;> omega
    have narrow : ((BitVec.ofNat 64 contents.length).setWidth 32).toInt = contents.length := by
      rw [BitVec.setWidth_ofNat_of_le (by omega), BitVec.toInt_eq_toNat_of_lt] <;>
        simp only [BitVec.toNat_ofNat] <;> omega
    have grown : tprealloc (some buffer) (contents.length : Int) session =
        (some (resize buffer contents.length), session) := by
      simp only [tprealloc]
      rw [if_neg (by omega)]
      rfl
    have got : txRead (contents.length : Int) session =
        ((contents, TX_OK), { session with input := more }) :=
      txRead_run available (by simp)
    have full : (resize buffer contents.length).drop contents.length = [] := by
      apply List.drop_eq_nil_of_le
      simp only [resize, List.length_append, List.length_take, List.length_replicate]
      omega
    simp only [readData, if_neg nonzero, bind_run, wide, grown, narrow, got, full, pure_run,
      List.append_nil, if_neg empty]

theorem readReply_run {call : Getrply} {session : Session} {status : Byte} {cd : BitVec 16}
    {rcode : BitVec 64} {contents buffer more : Bytes} (data : call.data = some buffer)
    (short : contents.length < 2 ^ 31)
    (available : session.input = longBytes rcode ++
      (longBytes ((BitVec.ofNat 32 contents.length).signExtend 64) ++ (contents ++ more))) :
    readReply call status cd session =
      ((cd.setWidth 32, some
        { cd := cd.setWidth 32
          data := some (if contents = [] then buffer else contents)
          len := BitVec.ofNat 64 contents.length }),
        { session with
          input := more
          tperrno := if status = TPFAIL.setWidth 8 then BitVec.ofNat 32 TPESVCFAIL else 0
          tpurcode := (rcode.setWidth 32).signExtend 64 }) := by
  set length := longBytes ((BitVec.ofNat 32 contents.length).signExtend 64) with length_eq
  have fixed : txRead (IOLONG + IOLONG) session =
      ((longBytes rcode ++ length, TX_OK), { session with input := contents ++ more }) :=
    txRead_run (by simp [available]) rfl
  have len : tolong length = BitVec.ofNat 64 contents.length := by
    simpa using tolong_length short []
  have skip : (longBytes rcode ++ length).drop IOLONG = length := rfl
  simp only [readReply, bind_run, fixed, succeeds_run, pure_run, decide_true, Bool.not_true,
    Bool.false_eq_true, ↓reduceIte, skip, len, data]
  rw [readData_run short rfl, setErrno_run]
  simp only [modify, modifyGet, MonadStateOf.modifyGet, StateT.modifyGet,
    tolong_longBytes_append]
  rfl

theorem readAnswer_reply {call : Getrply} {session : Session} {tr : Transaction}
    {contents buffer more : Bytes} (data : call.data = some buffer)
    (short : contents.length < 2 ^ 31)
    (available : session.input = replyFrame tr contents ++ more)
    (status : tr.rval.setWidth 8 = TPSUCCESS.setWidth 8 ∨
      tr.rval.setWidth 8 = TPFAIL.setWidth 8) :
    readAnswer call session =
      ((tr.cd.setWidth 32, some
        { cd := tr.cd.setWidth 32
          data := some (if contents = [] then buffer else contents)
          len := BitVec.ofNat 64 contents.length }),
        { session with
          input := more
          tperrno := if tr.rval.setWidth 8 = TPFAIL.setWidth 8 then BitVec.ofNat 32
            TPESVCFAIL else 0
          tpurcode := wire tr.rcode }) := by
  set rest := longBytes tr.rcode ++
    (longBytes ((BitVec.ofNat 32 contents.length).signExtend 64) ++ (contents ++ more)) with rest_eq
  have first : txRead (1 + IOSHORT) session =
      ((tr.rval.setWidth 8 :: shortBytes tr.cd, TX_OK), { session with input := rest }) :=
    txRead_run (by simp [available, replyFrame, rest_eq]) rfl
  have known : ¬(tr.rval.setWidth 8 ≠ TPSUCCESS.setWidth 8 ∧
      tr.rval.setWidth 8 ≠ TPFAIL.setWidth 8) := by tauto
  simp only [readAnswer, bind_run, first, succeeds_run, pure_run, decide_true, Bool.not_true,
    Bool.false_eq_true, ↓reduceIte, List.getD_cons_zero, List.drop_succ_cons, List.drop_zero,
    if_neg known, toshort_shortBytes]
  rw [readReply_run data short rest_eq]
  rfl

/-- After its request `tpgetrply` writes nothing. -/
theorem readAnswer_output (call : Getrply) (session : Session) :
    (readAnswer call session).2.output = session.output := by
  have reads : ∀ (data : Option Bytes) len (s : Session), (readData data len s).2.output =
      s.output := by
    intro data len s
    unfold readData
    split
    · rfl
    · cases data with
      | none => rfl
      | some contents =>
          simp only [bind_run, tprealloc]
          split <;> rfl
  simp only [readAnswer, readReply, bind_run]
  split
  · rfl
  · split
    · rfl
    · simp only [bind_run]
      split
      · rfl
      · simp only [bind_run]
        exact reads ..

/-! ## Agreement with the switchboard -/

/-- A call of `tpgetrply` that is about to get the answer `frame`, with `more` behind it. -/
structure AboutToRead (frame more : Bytes) (call : Getrply) (session : Session) : Prop where
  len_ne : call.len ≠ 0
  data : ∃ buffer, call.data = some buffer
  writable : session.writable = true
  input : session.input = frame ++ more

/-- `frame` is consumed to its end and no further by every `tpgetrply` that waits for it, and a
transaction that failed with `TPERRNO` is reported by its `rcode`. -/
def ReadsBack (frame : Bytes) (tr : Transaction) : Prop :=
  ∀ more call session flags, AboutToRead frame more call session →
    (tpgetrply (some call) flags session).2.input = more ∧
      (tr.rval = TPERRNO →
        (tpgetrply (some call) flags session).1.1 = -1 ∧
          (tpgetrply (some call) flags session).2.tperrno = tr.rcode.setWidth 32)

theorem readsBack_replyFrame_iff {tr : Transaction} {contents : Bytes}
    (short : contents.length < 2 ^ 31) :
    ReadsBack (replyFrame tr contents) tr ↔
      tr.rval.setWidth 8 = TPSUCCESS.setWidth 8 ∨ tr.rval.setWidth 8 = TPFAIL.setWidth 8 := by
  constructor
  · intro readsBack
    by_contra unknown
    let call : Getrply := { cd := 0, data := some [], len := 1 }
    let session : Session := { input := replyFrame tr contents }
    have waiting : AboutToRead (replyFrame tr contents) [] call session :=
      ⟨by decide, ⟨[], rfl⟩, rfl, by simp [session]⟩
    have left := (readsBack [] call session 0 waiting).1
    have frame : (session.asked call.cd 0).input = tr.rval.setWidth 8 :: shortBytes tr.cd ++
        (longBytes tr.rcode ++
          (longBytes ((BitVec.ofNat 32 contents.length).signExtend 64) ++ contents)) := by
      simp [session, Session.asked, replyFrame]
    rw [tpgetrply_run waiting.len_ne waiting.writable,
      readAnswer_error frame (not_or.mp unknown)] at left
    have := congrArg List.length left
    simp [IOLONG] at this
  · intro status more call session flags waiting
    obtain ⟨buffer, data⟩ := waiting.data
    rw [tpgetrply_run waiting.len_ne waiting.writable]
    have available : (session.asked call.cd flags).input = replyFrame tr contents ++ more :=
      waiting.input
    refine ⟨by rw [readAnswer_reply data short available status], ?_⟩
    intro failed
    rw [failed] at status
    exact absurd status (by decide)

/-- What the switchboard wrote to a client between two states. -/
def written (before after : State) (c : ClientId) : Bytes :=
  (after.sent c).drop (before.sent c).length

theorem written_sndReply {t : TranId} {σ σ' : State} {tr : Transaction} {contents : Bytes}
    (answered : sndReply t σ = .ok ((), σ')) (live : σ.tran t = some tr)
    (data : σ.buf tr.data = some contents) :
    written σ σ' tr.client = replyFrame tr contents := by
  obtain ⟨tr', contents', _, deletable, data', _, _, rfl⟩ := sndReply_ok_iff.mp answered
  obtain rfl := Option.some.inj (live.symm.trans deletable.live)
  obtain rfl := Option.some.inj (data.symm.trans data')
  simp [written, State.reply, State.delTran, State.mapClient, State.nextCommand, State.arm,
    State.allocBuf, State.write]

theorem written_senderrno {c : ClientId} {errno : Nat} {σ σ' : State}
    (answered : senderrno c errno σ = .ok ((), σ')) :
    written σ σ' c = TPERRNO.setWidth 8 :: shortBytes (BitVec.ofNat 16 errno) := by
  simp only [senderrno, bind_ok_iff, svrwriteb_ok_iff, svrwrites_ok_iff, svrNextCommand_ok_iff,
    and_assoc, exists_and_left, exists_eq_left, exists_const, State.write_write] at answered
  obtain ⟨_, _, _, rfl⟩ := answered
  simp [written, State.mapClient, State.nextCommand, State.arm, State.allocBuf, State.write]

theorem tpgetrply_senderrno {c : ClientId} {errno : Nat} {σ σ' : State} {more : Bytes}
    {call : Getrply} {session : Session} (answered : senderrno c errno σ = .ok ((), σ'))
    (waiting : AboutToRead (written σ σ' c) more call session) (flags : BitVec 64) :
    (tpgetrply (some call) flags session).2.input = more ∧
      (tpgetrply (some call) flags session).1.1 = -1 ∧
        (tpgetrply (some call) flags session).2.tperrno = (BitVec.ofNat 16 errno).setWidth 32 := by
  have frame : (session.asked call.cd flags).input =
      TPERRNO.setWidth 8 :: shortBytes (BitVec.ofNat 16 errno) ++ more := by
    rw [← written_senderrno answered]
    exact waiting.input
  rw [tpgetrply_run waiting.len_ne waiting.writable, readAnswer_error frame (by decide)]
  exact ⟨rfl, rfl, rfl⟩

/-- The answers to a `TPTGRPLY`, as the library reads them. A frame of `snd_reply` is consumed
exactly, with a failed transaction reported by its `rcode`, if and only if its status byte is
`TPSUCCESS` or `TPFAIL`; the third status that occurs, `TPERRNO`, is read as an error of three
bytes. The three bytes of `senderrno` are always consumed exactly and reported by their code. -/
theorem getrply_reads_answers {t : TranId} {σ σ' : State} {tr : Transaction} {contents : Bytes}
    (answered : sndReply t σ = .ok ((), σ')) (live : σ.tran t = some tr)
    (data : σ.buf tr.data = some contents) (short : contents.length < 2 ^ 31) :
    (ReadsBack (written σ σ' tr.client) tr ↔
      tr.rval.setWidth 8 = TPSUCCESS.setWidth 8 ∨ tr.rval.setWidth 8 = TPFAIL.setWidth 8) ∧
    ∀ c errno before after, senderrno c errno before = .ok ((), after) →
      ∀ more call session flags, AboutToRead (written before after c) more call session →
        (tpgetrply (some call) flags session).2.input = more ∧
          (tpgetrply (some call) flags session).1.1 = -1 ∧
            (tpgetrply (some call) flags session).2.tperrno =
              (BitVec.ofNat 16 errno).setWidth 32 := by
  constructor
  · rw [written_sndReply answered live data]
    exact readsBack_replyFrame_iff short
  · intro c errno before after refused more call session flags waiting
    exact tpgetrply_senderrno refused waiting flags

/-- A client with one finished transaction. -/
def answerable : State where
  clients := [0]
  client := put (fun _ => none) 0 (some { replies := [1] })
  transactions := [1]
  tran := put (fun _ => none) 1 (some
    { client := 0, svc := 3, arrival := ⟨0, 0⟩, cd := 9, data := 2, rval := TPSUCCESS, flags := 0 })
  buf := put (fun _ => none) 2 (some [0x41])
  next := 4

theorem getrply_reads_answerable :
    ∃ after tr, sndReply 1 answerable = .ok ((), after) ∧ answerable.tran 1 = some tr ∧
      ReadsBack (written answerable after tr.client) tr := by
  refine ⟨_, _, rfl, rfl, ?_⟩
  exact (@getrply_reads_answers 1 answerable _ _ [0x41] rfl rfl rfl (by decide)).1.mpr (.inl rfl)

section DeadWorker

open Scenario

/-- Client 2 waits for the transaction with descriptor 9 that worker 0 executes. -/
def awaitedWork : List Event :=
  [connect, connect] ++ advertise 0 0x41 ++ work 0 ++ call 2 0x41 0 9 ++ getrply 2 9 0

/-- The frame client 2 gets when worker 0 then dies. -/
def failedFrame : Bytes :=
  [3, 9, 0, 10, 0, 0, 0, 0, 0, 0, 0]

/-- The worker dies and its transaction fails with `TPERRNO` and `TPESVCERR`; the waiting
`tpgetrply` leaves eight of the eleven bytes unread and takes the descriptor for the error. -/
theorem getrply_misreads_failed_transaction :
    (Scenario.outcome awaitedWork fun σ => σ.sent 2) = some [0, 9, 0] ∧
    (Scenario.outcome (awaitedWork ++ [hangUp 0]) fun σ => σ.sent 2) =
      some ([0, 9, 0] ++ failedFrame) ∧
    (tpgetrply (some { cd := 9, data := some [], len := 1 }) 0 { input := failedFrame }).2.input =
      [10, 0, 0, 0, 0, 0, 0, 0] ∧
    (tpgetrply (some { cd := 9, data := some [], len := 1 }) 0 { input := failedFrame }).2.tperrno =
      9 ∧
    TPESVCERR = 10 := by
  decide +kernel

end DeadWorker

end Library
end Xatmi
