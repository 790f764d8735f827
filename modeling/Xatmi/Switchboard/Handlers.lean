import Xatmi.Switchboard.Objects

/-!
# The message handlers

One definition for each function of the `svr*.c` files, and the loop body of `Iowait` that calls
them.  A connection that is ready delivers what `read` returns: an error, end of file, or a
non-empty piece of the peer's stream no longer than the room left in the buffer.
-/

namespace Xatmi
namespace Switchboard

open Program

/-! ## `svrservice.c` -/

/-- `FIRSTTRAN(a)`. -/
def firstTran (a : AdvertId) : M TranId := do
  let v ← readAdvert a
  nodeTran (← qfirst v.svc)

/-- One visit of `find_earliest`. -/
def findEarliest (earliest : Option AdvertId) (p : AdvertId) : M (Option AdvertId) := do
  let v ← readAdvert p
  let svc ← readService v.svc
  let empty ← qisempty v.svc
  if svc.waitContainsTransactions && !empty then
    match earliest with
    | none => pure (some p)
    | some e => do
        let first ← readTran (← firstTran e)
        let second ← readTran (← firstTran p)
        if first.arrival.before second.arrival then pure (some p) else pure (some e)
  else
    pure earliest

/-- One visit of `add_to_waitq`. -/
def addToWaitq (p : AdvertId) : M PUnit := do
  let v ← readAdvert p
  modifyService v.svc fun svc => { svc with waitContainsTransactions := false }
  qappend v.svc (.adv p)

/-- One visit of `remove_from_waitq`. -/
def removeFromWaitq (p : AdvertId) : M PUnit :=
  qdelete (.adv p)

/-- `send_to_server`. -/
def sendToServer (env : Env) (a : AdvertId) (t : TranId) : M PUnit := do
  let v ← readAdvert a
  let x ← readClient v.client
  (env.walk x.adverts).forM removeFromWaitq
  modifyClient v.client fun x => { x with wait4 := some (.tran t) }
  modifyTran t fun tr => { tr with executor := some a }
  observe (.dispatched a v.client t)
  svrwritel v.client v.opaqueFunc
  let tr ← readTran t
  let svc ← readService tr.svc
  svrwrite v.client svc.svcname
  let contents ← readBuf tr.data
  svrwritel v.client (BitVec.ofNat 64 contents.length)
  svrwritel v.client tr.flags
  svrwrites v.client tr.cd
  svrwrite v.client contents
  svrNextCommand v.client

/-- `svrservice`. -/
def svrservice (env : Env) (c : ClientId) (buf : BufId) : M PUnit := do
  tpfree buf
  let x ← readClient c
  let earliest ← (env.walk x.adverts).foldlM findEarliest none
  match earliest with
  | some a => do
      let t ← firstTran a
      sendToServer env a t
  | none => (env.walk x.adverts).forM addToWaitq

/-! ## `svracall.c` -/

/-- `send_to_worker`: the transaction just read goes to a waiting worker or onto the queue. -/
def sendToWorker (env : Env) (c : ClientId) (_buf : BufId) : M PUnit := do
  svrNextCommand c
  let x ← readClient c
  match x.requests.getLast? with
  | none => throw .wrongType
  | some t => do
      let tr ← readTran t
      let svc ← readService tr.svc
      let empty ← qisempty tr.svc
      if !empty && !svc.waitContainsTransactions then do
        let a ← nodeAdvert (← qfirst tr.svc)
        sendToServer env a t
      else do
        modifyService tr.svc fun svc => { svc with waitContainsTransactions := true }
        qappend tr.svc (.tran t)

/-- `svracall`. -/
def svracall (env : Env) (c : ClientId) (buf : BufId) : M PUnit := do
  let contents ← readBuf buf
  let σ ← get
  let t ← newTransaction env c
    (tolong (contents.drop (XATMI_SERVICE_NAME_LENGTH + IOLONG)))
    (σ.fndService (contents.take XATMI_SERVICE_NAME_LENGTH))
    (tolong (contents.drop XATMI_SERVICE_NAME_LENGTH)).toInt
  tpfree buf
  match t with
  | none => do
      svrwriteb c (-1)
      svrwrites c (BitVec.ofNat 16 TPENOENT)
      svrNextCommand c
  | some t => do
      modifyClient c fun x => { x with requests := x.requests ++ [t] }
      let tr ← readTran t
      svrwriteb c 0
      svrwrites c tr.cd
      svriowait c tr.data .sendToWorker (sendToWorker env)

/-! ## `svrgetrply.c` -/

/-- `senderrno`. -/
def senderrno (c : ClientId) (errno : Nat) : M PUnit := do
  svrwriteb c (TPERRNO.setWidth 8)
  svrwrites c (BitVec.ofNat 16 errno)
  svrNextCommand c

/-- The first transaction of a client's queue with the given descriptor. -/
def State.findCd (σ : State) (queue : List TranId) (cd : BitVec 16) : Option TranId :=
  queue.find? fun t => (σ.tran t).any fun tr => tr.cd = cd

/-- `svrgetrply`. -/
def svrgetrply (c : ClientId) (buf : BufId) : M PUnit := do
  let contents ← readBuf buf
  let cd := toshort contents
  let flags := tolong (contents.drop IOSHORT)
  tpfree buf
  let x ← readClient c
  let σ ← get
  let reply := if flags &&& TPGETANY = 0 then σ.findCd x.replies cd else x.replies.head?
  match reply with
  | some t => sndReply t
  | none => do
      let awaited :=
        if flags &&& TPGETANY = 0 then (σ.findCd x.requests cd).map .tran else some .any
      match awaited with
      | none => senderrno c TPEBADDESC
      | some w =>
          if flags &&& TPNOBLOCK ≠ 0 then
            senderrno c TPEBLOCK
          else
            modifyClient c fun x => { x with wait4 := some w }

/-! ## `svrreturn.c` -/

/-- `part2`: the reply is complete. -/
def part2 (c : ClientId) (_buf : BufId) : M PUnit := do
  svrNextCommand c
  let x ← readClient c
  match x.wait4 with
  | some (.tran t) => do
      modifyClient c fun x => { x with wait4 := none }
      modifyTran t fun tr => { tr with executor := none }
      let tr ← readTran t
      let k ← readClient tr.client
      if k.wait4 = some .any || k.wait4 = some (.tran t) then
        sndReply t
      else
        queueReply t
  -- the fields of the sentinel are all null
  | some .any => throw .nullPointer
  | none => throw .nullPointer

/-- `svrreturn` up to its call of `svriowait`, told whether `realloc` finds memory: what it leaves
in `t->data`. -/
def svrreturnData (granted : Bool) (c : ClientId) (buf : BufId) : M (Option BufId) := do
  let contents ← readBuf buf
  let x ← readClient c
  match x.wait4 with
  | some (.tran t) => do
      modifyTran t fun tr =>
        { tr with
          rval := (contents.getD 0 0).signExtend 32
          rcode := tolong (contents.drop 1) }
      let tr ← readTran t
      match ← tpreallocWith granted tr.data (tolong (contents.drop (1 + IOLONG))).toInt with
      -- nothing reads the null pointer but the assertion of `svriowait`
      | none => do
          tpfree buf
          pure none
      | some data => do
          modifyTran t fun tr => { tr with data }
          tpfree buf
          pure (some data)
  -- `tprealloc` refuses the null buffer of the sentinel
  | some .any => do
      tpfree buf
      pure none
  | none => throw .nullPointer

/-- `svrreturn`, told whether `realloc` finds memory. -/
def svrreturnWith (granted : Bool) (c : ClientId) (buf : BufId) : M PUnit := do
  match ← svrreturnData granted c buf with
  -- `svriowait` asserts that its buffer is not null
  | none => throw .assertion
  | some data => svriowait c data .part2 part2

/-- `svrreturn` while there is memory. -/
def svrreturn : ClientId → BufId → M PUnit :=
  svrreturnWith true

/-! ## `svradvertise.c` and `svrunadvertise.c` -/

/-- `svradvertise`. -/
def svradvertise (c : ClientId) (buf : BufId) : M PUnit := do
  let contents ← readBuf buf
  let opaqueFunc := tolong (contents.drop XATMI_SERVICE_NAME_LENGTH)
  let a ← newAdvertisement c (contents.take XATMI_SERVICE_NAME_LENGTH) opaqueFunc
  tpfree buf
  let v ← readAdvert a
  if v.opaqueFunc ≠ opaqueFunc then
    svrwrites c (BitVec.ofNat 16 TPEMATCH)
  else
    svrwrites c 0
  svrNextCommand c

/-- `svrunadvertise`, given what `free` does and to what depth `del_advertisement` recurs. -/
def svrunadvertiseBy (r : Release) (depth : Nat → Nat) (c : ClientId) (buf : BufId) : M PUnit := do
  let contents ← readBuf buf
  let σ ← get
  let a := σ.fndAdvertisement c (contents.take XATMI_SERVICE_NAME_LENGTH)
  tpfree buf
  match a with
  | some a => do
      delAdvertisementWith r (depth σ.next) a
      svrwrites c 0
  | none => svrwrites c (BitVec.ofNat 16 TPENOENT)
  svrNextCommand c

/-- `svrunadvertise`. -/
def svrunadvertise : ClientId → BufId → M PUnit :=
  svrunadvertiseBy .plain id

/-! ## `tpserver.c` -/

/-- The table `commands`: handler and length of the fixed part, by message type. -/
def commands : List (Handler × Nat) :=
  [(.svracall, XATMI_SERVICE_NAME_LENGTH + IOLONG * 2),
   (.svrgetrply, IOSHORT + IOLONG),
   (.svradvertise, XATMI_SERVICE_NAME_LENGTH + IOLONG),
   (.svrunadvertise, XATMI_SERVICE_NAME_LENGTH),
   (.svrservice, 0),
   (.svrreturn, 1 + IOLONG * 2)]

/-- The function behind each entry of `commands`. -/
def runCommand (env : Env) : Handler → ClientId → BufId → M PUnit
  | .svracall => svracall env
  | .svrgetrply => svrgetrply
  | .svradvertise => svradvertise
  | .svrunadvertise => svrunadvertise
  | .svrservice => svrservice env
  | .svrreturn => svrreturn
  | .command | .sendToWorker | .part2 => fun _ _ => throw .diverges

/-- `command`; a byte from 128 up is a negative `char`, which the comparison with an unsigned
length turns into a number past the table. -/
def command (env : Env) (c : ClientId) (buf : BufId) : M PUnit := do
  let contents ← readBuf buf
  match commands[(contents.getD 0 0).toNat]? with
  | some (handler, len) => do
      match ← tprealloc buf len with
      | some data => svriowait c data handler (runCommand env handler)
      | none => throw .assertion
  | none => do
      tpfree buf
      delClient env c

/-- Call the handler a connection was waiting for. -/
def runHandler (env : Env) : Handler → ClientId → BufId → M PUnit
  | .command => command env
  | .sendToWorker => sendToWorker env
  | .part2 => part2
  | handler => runCommand env handler

/-- Overwrite a stretch of a buffer. -/
def overwrite (contents : Bytes) (offset : Nat) (piece : Bytes) : Bytes :=
  contents.take offset ++ piece ++ contents.drop (offset + piece.length)

/-- The body of the second loop of `Iowait` for a ready connection; `input` is what the descriptor
has to give, nothing for an error. -/
def serve (env : Env) (c : ClientId) (input : Option Bytes) : M PUnit := do
  let x ← readClient c
  match x.input, x.handler with
  | some b, some handler => do
      let contents ← readBuf b
      if x.used ≥ contents.length then
        delClient env c
      else
        match input.map (List.take (contents.length - x.used)) with
        | none => delClient env c
        | some [] => delClient env c
        | some (byte :: rest) => do
            let filled := overwrite contents x.used (byte :: rest)
            modify fun σ => { σ with buf := put σ.buf b (some filled) }
            if x.used + (byte :: rest).length = contents.length then do
              modifyClient c fun x => { x with handler := none, input := none, used := 0 }
              observe (.handled c handler filled)
              runHandler env handler c b
            else
              modifyClient c fun x => { x with used := x.used + (byte :: rest).length }
  | _, _ => delClient env c

end Switchboard
end Xatmi
