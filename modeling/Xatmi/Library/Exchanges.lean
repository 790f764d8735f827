import Xatmi.Library.Descriptors
import Xatmi.Library.Getrply
import Xatmi.Library.InStep
import Xatmi.Switchboard.Replies
import Xatmi.Switchboard.Requests

/-!
# Calls, returns and replies

What the switchboard makes of a `tpacall`, a `tpreturn` and a `tpgetrply` of a process in step, and
where it leaves the process.  The reply to a transaction that has failed is the only answer that the
library does not read to its end.
-/

namespace Xatmi
namespace Library

open Switchboard

variable {whole : Bytes} {σ τ : State} {c : ClientId} {events : List Event} {before after : Session}
  {svc : Bytes} {data : Option Bytes} {n : Nat} {flags : BitVec 64} {result : BitVec 32}

/-! ## What `tpacall` writes -/

theorem writeData_of_enough (short : n < 2 ^ 31) (enough : n ≤ (data.getD []).length) :
    writeData data (BitVec.ofNat 64 n) = txWrite ((data.getD []).take n) := by
  have narrow : ((BitVec.ofNat 64 n).setWidth 32).toInt = n := by
    rw [BitVec.setWidth_ofNat_of_le (by omega), BitVec.toInt_eq_toNat_of_lt] <;>
      simp only [BitVec.toNat_ofNat] <;> omega
  simp only [writeData, narrow]
  rw [if_neg (by omega)]
  cases data with
  | none =>
      obtain rfl : n = 0 := Nat.le_zero.mp enough
      rfl
  | some contents => rfl

theorem txWrite_fails {session : Session} (writable : session.writable = false) (val : Bytes) :
    txWrite val session = (TX_FAIL, session) := by
  simp only [txWrite, bind_run]
  change (if session.writable = true then _ else _ : Lib (BitVec 32)) session = _
  rw [if_neg (by simp [writable])]
  rfl

theorem txWrite_output (val : Bytes) (session : Session) :
    ∃ rest, (txWrite val session).2.output = session.output ++ rest := by
  cases writable : session.writable with
  | true => exact ⟨val, by rw [txWrite_run writable]⟩
  | false => exact ⟨[], by rw [txWrite_fails writable, List.append_nil]⟩

theorem sendData_output (data : Option Bytes) (len : BitVec 64) (session : Session) :
    ∃ rest, (sendData data len session).2.output = session.output ++ rest := by
  have same : ∃ rest, session.output = session.output ++ rest := ⟨[], (List.append_nil _).symm⟩
  have writes : ∀ s : Session, ∃ rest, (writeData data len s).2.output = s.output ++ rest := by
    intro s
    have silent : ∃ rest, s.output = s.output ++ rest := ⟨[], (List.append_nil _).symm⟩
    unfold writeData
    split
    · exact silent
    · split
      · split
        · exact txWrite_output [] s
        · exact silent
      · exact txWrite_output _ s
  simp only [sendData, bind_run]
  split
  · exact same
  · split
    · exact same
    · simp only [bind_run]
      split <;> exact writes _

theorem reading_calls {rest : Bytes} (reach : Reachable anyStep σ)
    (starts : σ.Reading c .command 1 []) (execution : run σ events = .ok τ)
    (name : svc.length = XATMI_SERVICE_NAME_LENGTH) (short : n < 2 ^ 31)
    (sends : stream c σ events = TPTCALL :: (callMessage svc (BitVec.ofNat 64 n) flags ++ rest)) :
    ∃ first e tail ρ ρ', events = first ++ e :: tail ∧ run σ first = .ok ρ ∧ step ρ e = .ok ρ' ∧
      run ρ' tail = .ok τ ∧
      Received ρ e c .svracall (callMessage svc (BitVec.ofNat 64 n) flags) ∧
      stream c ρ' tail = rest ∧ ρ.sent c = σ.sent c ∧
      (ρ'.Reading c .command 1 [] ∧
          ρ'.sent c = ρ.sent c ++ -1 :: shortBytes (BitVec.ofNat 16 TPENOENT) ∨
        ∃ s t tr, ρ.fndService svc = some s ∧ tr = request e.env c s (wire flags) ρ.next ∧
          ρ.next ≤ t ∧ (∃ tr', ρ'.tran t = some tr' ∧ tr'.place = tr.place) ∧
          ρ'.sent c = ρ.sent c ++ 0 :: shortBytes tr.cd ∧
          (n ≠ 0 ∧ ρ'.tran t = some tr ∧ ρ'.Reading c .sendToWorker n [] ∧
              (∃ y, ρ'.client c = some y ∧ y.input = some tr.data) ∨
            n = 0 ∧ ρ'.Reading c .command 1 [] ∧ Settles ρ ρ' t tr [])) := by
  set body := callMessage svc (BitVec.ofNat 64 n) flags with body_eq
  have length : body.length = XATMI_SERVICE_NAME_LENGTH + IOLONG + IOLONG := length_callMessage name
  have known : commands[TPTCALL.toNat]? = some (.svracall, body.length) := by
    rw [length]
    rfl
  have nonempty : body ≠ [] := by
    intro empty
    rw [empty] at length
    cases length
  obtain ⟨first, e, tail, ρ, ρ', rfl, ran, done, execution', received, left, unsent, _⟩ :=
    starts.message (motive := fun _ => True) reach (meets_anyStep σ events) execution known nonempty
      sends trivial (fun _ _ _ _ _ _ _ _ _ => id) (fun _ _ _ _ _ _ _ _ _ _ => id)
  have flag : body.drop (XATMI_SERVICE_NAME_LENGTH + IOLONG) = longBytes flags := by
    rw [← List.drop_drop, drop_callMessage name]
    rfl
  refine ⟨first, e, tail, ρ, ρ', rfl, ran, done, execution', received, left, unsent, ?_⟩
  rcases step_call (inv_of_reachable (reach.run ran)) received done with ⟨_, refused⟩ |
    ⟨s, t, tr, len, service, announced, made, new, current, granted, outcome⟩
  · exact .inl refused
  · rw [take_callMessage name] at service
    rw [flag, tolong_longBytes] at made
    have length : len = n := by
      rw [drop_callMessage name, tolong_longBytes_append] at announced
      have value : ((BitVec.ofNat 64 n).setWidth 32).signExtend 64 = BitVec.ofNat 64 n :=
        wire_ofNat short
      rw [value, BitVec.toInt_eq_toNat_of_lt] at announced <;>
        simp only [BitVec.toNat_ofNat] at * <;> omega
    subst length
    have cd : tr.cd = e.env.cd := by rw [made]; rfl
    exact .inr ⟨s, t, tr, service, made, new, current, cd ▸ granted, outcome⟩

/-! ## The transaction of a call -/

/-- In the step from `σ` to `τ` the data of transaction `t`, a call of service `svc`, has become
complete. -/
structure Uploaded (σ τ : State) (t : TranId) (tr : Transaction) (svc bytes : Bytes) : Prop where
  new : ¬σ.Dispatched t
  settles : Settles σ τ t tr bytes
  lives : ∃ tr', τ.tran t = some tr'
  place : ∀ later μ tr', run τ later = .ok μ → μ.tran t = some tr' → tr'.place = tr.place
  name : ∀ later μ svc', run σ later = .ok μ → μ.service tr.svc = some svc' →
    cname svc'.svcname = cname svc

section Upload

variable {t : TranId} {tr : Transaction} {bytes : Bytes}

theorem lives_of_settles (inv : Inv ⟨{}, σ⟩) {e : Event} (done : step σ e = .ok τ)
    (new : ¬σ.Dispatched t) (settles : Settles σ τ t tr bytes) : ∃ tr', τ.tran t = some tr' := by
  by_cases given : τ.Dispatched t
  · obtain ⟨a, w, seen⟩ := given
    obtain ⟨_, given⟩ := given_of_dispatched inv done seen fun before => new ⟨a, w, before⟩
    obtain ⟨_, tr', _, _, handed⟩ := given.hands
    exact ⟨tr', handed.found⟩
  · exact ⟨tr, (settles.2 given).found⟩

theorem uploaded_of_call {ρ ρ' : State} {e : Event} {tail : List Event} {s : ServiceId}
    {rest : Bytes} (reach : Reachable anyStep ρ) (done : step ρ e = .ok ρ')
    (execution : run ρ' tail = .ok τ) (offered : ρ.fndService svc = some s)
    (made : tr = request e.env c s flags ρ.next) (new : ρ.next ≤ t)
    (current : ∃ tr', ρ'.tran t = some tr' ∧ tr'.place = tr.place)
    (outcome : n ≠ 0 ∧ ρ'.tran t = some tr ∧ ρ'.Reading c .sendToWorker n [] ∧
        (∃ y, ρ'.client c = some y ∧ y.input = some tr.data) ∨
      n = 0 ∧ ρ'.Reading c .command 1 [] ∧ Settles ρ ρ' t tr [])
    (length : bytes.length = n) (sends : stream c ρ' tail = bytes ++ rest) :
    ∃ first e' tail' μ μ', e :: tail = first ++ e' :: tail' ∧ run ρ first = .ok μ ∧
      step μ e' = .ok μ' ∧ run μ' tail' = .ok τ ∧ Uploaded μ μ' t tr svc bytes ∧
      μ'.Reading c .command 1 [] ∧ μ'.sent c = ρ'.sent c ∧ stream c μ' tail' = rest := by
  have inv := inv_of_reachable reach
  have reach' : Reachable anyStep ρ' := .next reach trivial done
  obtain ⟨tr₀, found₀, place₀⟩ := current
  have old : t < ρ'.next :=
    ((inv_of_reachable reach').waits.old (.tran t) (Option.isSome_of_eq_some found₀)).1
  have place : ∀ {later μ tr'}, run ρ' later = .ok μ → μ.tran t = some tr' →
      tr'.place = tr.place := by
    intro later μ tr' execution found
    obtain ⟨_, found₁, place₁⟩ := place_of_run reach' execution old found
    obtain rfl := Option.some.inj (found₀.symm.trans found₁)
    exact place₁.symm.trans place₀
  have name : ∀ {later μ svc'}, run ρ later = .ok μ → μ.service tr.svc = some svc' →
      cname svc'.svcname = cname svc := by
    intro later μ svc' execution asked
    obtain ⟨svc₀, current₀, matches_⟩ := inv.registry.fndService_eq_some_iff.mp offered
    have young : s < ρ.next := (inv.waits.old (.head s) (Option.isSome_of_eq_some current₀)).1
    rw [made] at asked
    obtain ⟨svc₁, current₁, kept⟩ := service_of_run reach execution young asked
    obtain rfl := Option.some.inj (current₀.symm.trans current₁)
    rw [← kept, matches_]
  rcases outcome with ⟨_, found, reading, into⟩ | ⟨rfl, reading, settles⟩
  · obtain ⟨first, e', tail', μ, μ', rfl, ran, done', execution', fresh, settles, reading', unsent,
      left⟩ := upload_settles reach' reading execution length sends found into
    have toμ : run ρ (e :: first) = .ok μ := run_cons_ok_iff.mpr ⟨ρ', done, ran⟩
    refine ⟨e :: first, e', tail', μ, μ', rfl, toμ, done', execution', ?_, reading', unsent, left⟩
    refine ⟨fresh, settles,
      lives_of_settles (inv_of_reachable (reach.run toμ)) done' fresh settles, ?_, ?_⟩
    · intro later ω tr' execution found
      have toμ' : run ρ' (first ++ [e']) = .ok μ' := run_concat_ok_iff.mpr ⟨μ, ran, done'⟩
      exact place (run_append_ok_iff.mpr ⟨μ', toμ', execution⟩) found
    · intro later ω svc' execution asked
      exact name (run_append_ok_iff.mpr ⟨μ, toμ, execution⟩) asked
  · obtain rfl := List.length_eq_zero_iff.mp length
    have fresh : ¬ρ.Dispatched t := by
      rintro ⟨a, w, seen⟩
      exact absurd (inv.fresh.log a w t seen).2.2 (Nat.not_lt.mpr new)
    refine ⟨[], e, tail, ρ, ρ', rfl, rfl, done, execution, ?_, reading, rfl, sends⟩
    exact ⟨fresh, settles, ⟨tr₀, found₀⟩, fun _ _ _ execution found => place execution found,
      fun _ _ _ execution asked => name execution asked⟩

end Upload

/-! ## What `tpacall` returns -/

theorem tpacall_refused (svc : Bytes) (data : Option Bytes) (len flags : BitVec 64) {more : Bytes}
    (writable : before.writable = true)
    (input : before.input = -1 :: shortBytes (BitVec.ofNat 16 TPENOENT) ++ more) :
    Library.tpacall (some svc) data len flags before = (-1, { before.calling svc len flags with
      input := more, tperrno := BitVec.ofNat 32 TPENOENT }) := by
  have available : (before.calling svc len flags).input =
      -1 :: shortBytes (BitVec.ofNat 16 TPENOENT) ++ more := input
  rw [tpacall_run writable, sendData_refused (by decide) available]
  rfl

theorem tpacall_accepted (svc : Bytes) (flags : BitVec 64) {cd : BitVec 16} {more : Bytes}
    (writable : before.writable = true) (short : n < 2 ^ 31) (enough : n ≤ (data.getD []).length)
    (input : before.input = 0 :: shortBytes cd ++ more) :
    Library.tpacall (some svc) data (BitVec.ofNat 64 n) flags before = (cd.setWidth 32,
      { before.calling svc (BitVec.ofNat 64 n) flags with
        input := more
        output := (before.calling svc (BitVec.ofNat 64 n) flags).output ++
          (data.getD []).take n }) := by
  have available : (before.calling svc (BitVec.ofNat 64 n) flags).input = 0 ::
      shortBytes cd ++ more :=
    input
  have writable' : (before.calling svc (BitVec.ofNat 64 n) flags).writable = true := writable
  rw [tpacall_run writable,
    sendData_accepted writable' (writeData_of_enough short enough) available]
  rfl

theorem calling_output (session : Session) (svc : Bytes) (len flags : BitVec 64) :
    (session.calling svc len flags).output = session.output ++
      TPTCALL :: callMessage (svc.take XATMI_SERVICE_NAME_LENGTH) len flags := by
  simp [Session.calling, callMessage]

/-- A process in step is in step after `tpacall`. If `tpacall` returns a descriptor, `svracall` has
made a transaction for it, the data of which becomes complete. -/
theorem Called.tpacall
    (called : Called whole c σ events τ (tpacall (some svc) data (BitVec.ofNat 64 n) flags) before
      result after) (inStep : InStep whole c σ before) (reach : Reachable anyStep σ)
    (full : XATMI_SERVICE_NAME_LENGTH ≤ svc.length) (short : n < 2 ^ 31)
    (enough : n ≤ (data.getD []).length) :
    InStep whole c τ after ∧ ∃ first e tail ρ ρ', events = first ++ e :: tail ∧
      run σ first = .ok ρ ∧ step ρ e = .ok ρ' ∧
      Received ρ e c .svracall
        (callMessage (svc.take XATMI_SERVICE_NAME_LENGTH) (BitVec.ofNat 64 n) flags) ∧
      (result ≠ -1 → ∃ s t tr pre e' post μ μ', tr = request e.env c s (wire flags) ρ.next ∧
        result = tr.cd.setWidth 32 ∧ ρ.next ≤ t ∧
        (∃ tr', ρ'.tran t = some tr' ∧ tr'.place = tr.place) ∧ events = pre ++ e' :: post ∧
        run σ pre = .ok μ ∧ step μ e' = .ok μ' ∧
        Uploaded μ μ' t tr (svc.take XATMI_SERVICE_NAME_LENGTH) ((data.getD []).take n)) := by
  have name : (svc.take XATMI_SERVICE_NAME_LENGTH).length = XATMI_SERVICE_NAME_LENGTH :=
    List.length_take_of_le full
  have length : ((data.getD []).take n).length = n := List.length_take_of_le enough
  obtain ⟨rest, output⟩ :=
    sendData_output data (BitVec.ofNat 64 n) (before.calling svc (BitVec.ofNat 64 n) flags)
  have sends : stream c σ events = TPTCALL ::
      (callMessage (svc.take XATMI_SERVICE_NAME_LENGTH) (BitVec.ofNat 64 n) flags ++ rest) := by
    apply called.sends
    rw [tpacall_run called.writable, output, calling_output]
    simp
  obtain ⟨first, e, tail, ρ, ρ', rfl, ran, done, execution, received, left, unsent, outcome⟩ :=
    reading_calls reach called.starts called.execution name short sends
  have reachρ : Reachable anyStep ρ := reach.run ran
  have reachρ' : Reachable anyStep ρ' := .next reachρ trivial done
  have carried : ρ'.sent c <+: whole := (sent_of_run reachρ' execution c).trans called.carried
  rw [← tpacall_run called.writable, called.calls] at output
  have connected := called.connected reach
  rcases outcome with ⟨reading, refused⟩ |
    ⟨s, t, tr, service, made, new, current, granted, outcome⟩
  · rw [unsent] at refused
    obtain ⟨more, available, whole_eq⟩ := inStep.reads refused carried
    have returned := tpacall_refused svc data (BitVec.ofNat 64 n) flags called.writable available
    obtain ⟨rfl, rfl⟩ := Prod.mk.inj (called.calls.symm.trans returned)
    obtain rfl : rest = [] := List.self_eq_append_right.mp output
    have last : τ.sent c = ρ'.sent c := reading.listens.quiet reachρ' execution left connected
    refine ⟨by rw [InStep, last, whole_eq], first, e, tail, ρ, ρ', rfl, ran, done, received, ?_⟩
    exact fun accepted => absurd rfl accepted
  · rw [unsent] at granted
    obtain ⟨more, available, whole_eq⟩ := inStep.reads granted carried
    have returned := tpacall_accepted svc flags called.writable short enough available
    obtain ⟨rfl, rfl⟩ := Prod.mk.inj (called.calls.symm.trans returned)
    obtain rfl : (data.getD []).take n = rest := List.append_cancel_left output
    obtain ⟨first', e', tail', μ, μ', split, ran', done', execution', uploaded, reading, unsent',
      nothing⟩ := uploaded_of_call reachρ done execution service made new current outcome length
        (left.trans (List.append_nil _).symm)
    have reachμ' : Reachable anyStep μ' := .next (reachρ.run ran') trivial done'
    have last : τ.sent c = ρ'.sent c :=
      (reading.listens.quiet reachμ' execution' nothing connected).trans unsent'
    refine ⟨by rw [InStep, last, whole_eq], first, e, tail, ρ, ρ', rfl, ran, done, received,
      fun _ => ⟨s, t, tr, first ++ first', e', tail', μ, μ', made, rfl, new, current, ?_, ?_, done',
        uploaded⟩⟩
    · rw [split, List.append_assoc]
    · exact run_append_ok_iff.mpr ⟨ρ, ran, ran'⟩

section Return

variable {w : ClientId} {t : TranId} {tr : Transaction} {rval : BitVec 32} {rcode : BitVec 64}

/-! ## What `tpreturn` writes -/

/-- The status that is sent for `rval`. -/
def returnStatus (rval : BitVec 32) : Byte :=
  if rval = TPSUCCESS then TPSUCCESS.setWidth 8 else TPFAIL.setWidth 8

/-- The fixed part of a `TPTRETN`. -/
def returnMessage (rval : BitVec 32) (rcode : BitVec 64) (n : Nat) : Bytes :=
  returnStatus rval :: (longBytes rcode ++ longBytes (BitVec.ofNat 64 n))

theorem tpreturn_run {session : Session} (writable : session.writable = true) (rval : BitVec 32)
    (rcode flags : BitVec 64) (short : n < 2 ^ 31) (enough : n ≤ (data.getD []).length) :
    tpreturn true rval rcode data (BitVec.ofNat 64 n) flags session =
      (true, { session with
        output := session.output ++
          (TPTRETN :: (returnMessage rval rcode n ++ (data.getD []).take n)) }) := by
  have status : (if rval ≠ TPFAIL ∧ rval ≠ TPSUCCESS then TPFAIL else rval).setWidth 8 =
      returnStatus rval := by
    unfold returnStatus
    by_cases success : rval = TPSUCCESS
    · rw [if_neg (by simp [success]), if_pos success, success]
    · rw [if_neg success]
      by_cases failure : rval = TPFAIL
      · rw [if_neg (by simp [failure]), failure]
      · rw [if_pos ⟨failure, success⟩]
  cases data with
  | none =>
      obtain rfl : n = 0 := Nat.le_zero.mp enough
      simp [-bind_pure_comp, tpreturn, bind_run, pure_run, txWriteb, txWrite_run, txWritel_run,
        writable, status, returnMessage]
  | some contents =>
      have writes : writeData (some contents) (BitVec.ofNat 64 n) = txWrite (contents.take n) :=
        writeData_of_enough short enough
      simp [-bind_pure_comp, tpreturn, bind_run, pure_run, txWriteb, txWrite_run, txWritel_run,
        writable, status, returnMessage, writes]

theorem returnLength_returnMessage (short : n < 2 ^ 31) :
    returnLength (returnMessage rval rcode n) = n := by
  have skip : (returnMessage rval rcode n).drop (1 + IOLONG) = longBytes (BitVec.ofNat 64 n) := rfl
  rw [returnLength, skip, tolong_longBytes, wire_ofNat short, BitVec.toInt_eq_toNat_of_lt] <;>
    simp only [BitVec.toNat_ofNat] <;> omega

theorem returned_returnMessage (tr : Transaction) (b : BufId) :
    tr.returned (returnMessage rval rcode n) b =
      { tr with rval := (returnStatus rval).signExtend 32, rcode := wire rcode, data := b } := by
  have code : tolong ((returnMessage rval rcode n).drop 1) = wire rcode :=
    tolong_longBytes_append _ _
  rw [Transaction.returned, code]
  rfl

/-- What is sent for a service routine that is left without `tpreturn`. -/
def fallMessage : Bytes :=
  TPERRNO.setWidth 8 :: (longBytes (BitVec.ofNat 64 TPESVCERR) ++ longBytes 0)

theorem fellOut_run {session : Session} (writable : session.writable = true) :
    fellOut session = ((), { session with
      output := session.output ++ (TPTRETN :: (fallMessage ++ [])) }) := by
  simp [-bind_pure_comp, fellOut, bind_run, pure_run, txWriteb, txWrite_run, txWritel_run, writable,
    fallMessage]

/-! ## The return -/

/-- A process in step that returns a result is in step afterwards, and there is a step in which the
result becomes complete. -/
theorem Called.returns {α : Type} {call : Lib α} {result : α} {header bytes : Bytes}
    (called : Called whole w σ events τ call before result after)
    (writes : (call before).2 =
      { before with output := before.output ++ (TPTRETN :: (header ++ bytes)) })
    (reach : Reachable PicksNew σ) (meets : Meets PicksNew σ events) (executes : σ.Executes w t tr)
    (full : header.length = 1 + IOLONG * 2) (length : returnLength header = bytes.length) :
    (InStep whole w σ before → InStep whole w τ after) ∧
      ∃ first e tail ρ ρ' b, events = first ++ e :: tail ∧ run σ first = .ok ρ ∧ step ρ e = .ok ρ' ∧
        Reachable PicksNew ρ' ∧ Concludes ρ ρ' t (tr.returned header b) bytes := by
  have sends : stream w σ events = TPTRETN :: (header ++ (bytes ++ [])) := by
    apply called.sends
    rw [writes, List.append_nil]
  obtain ⟨first, e, tail, ρ, ρ', b, split, ran, done, execution, reach', _, _, concludes,
    ready, unsent, silent⟩ :=
    called.starts.returns reach meets called.execution executes full length sends
  refine ⟨fun inStep => ?_, first, e, tail, ρ, ρ', b, split, ran, done, reach', concludes⟩
  have last : τ.sent w = σ.sent w :=
    (ready.1.listens.quiet (reach'.mono fun _ _ _ => trivial) execution silent
      (called.connected (reach.mono fun _ _ _ => trivial))).trans unsent
  rw [called.calls] at writes
  rw [InStep, last, show after = _ from writes]
  exact inStep

theorem Called.tpreturn {result : Bool}
    (called : Called whole w σ events τ
      (Library.tpreturn true rval rcode data (BitVec.ofNat 64 n) flags) before result after)
    (reach : Reachable PicksNew σ) (meets : Meets PicksNew σ events) (executes : σ.Executes w t tr)
    (short : n < 2 ^ 31) (enough : n ≤ (data.getD []).length) :
    (InStep whole w σ before → InStep whole w τ after) ∧
      ∃ first e tail ρ ρ' b, events = first ++ e :: tail ∧ run σ first = .ok ρ ∧ step ρ e = .ok ρ' ∧
        Reachable PicksNew ρ' ∧
        Concludes ρ ρ' t
          { tr with rval := (returnStatus rval).signExtend 32, rcode := wire rcode, data := b }
          ((data.getD []).take n) := by
  have length : returnLength (returnMessage rval rcode n) = ((data.getD []).take n).length := by
    rw [returnLength_returnMessage short, List.length_take_of_le enough]
  have writes := tpreturn_run called.writable rval rcode flags short enough
  obtain ⟨inStep, first, e, tail, ρ, ρ', b, split, ran, done, reach', concludes⟩ :=
    called.returns (by rw [writes]) reach meets executes rfl length
  rw [returned_returnMessage] at concludes
  exact ⟨inStep, first, e, tail, ρ, ρ', b, split, ran, done, reach', concludes⟩

/-! ## The reply -/

theorem tpgetrply_reply {call : Getrply} {session : Session} {bytes more : Bytes} (tr : Transaction)
    (flags : BitVec 64) (fits : -2 ^ 31 ≤ rcode.toInt ∧ rcode.toInt < 2 ^ 31)
    (short : bytes.length < 2 ^ 31) (status : tr.rval = (returnStatus rval).signExtend 32)
    (code : tr.rcode = wire rcode) (asks : call.len ≠ 0)
    (buffer : ∃ buffer, call.data = some buffer) (writable : session.writable = true)
    (input : session.input = replyFrame tr bytes ++ more) :
    tpgetrply (some call) flags session = ((tr.cd.setWidth 32, some
      { cd := tr.cd.setWidth 32
        data := if bytes = [] then call.data else some bytes
        len := BitVec.ofNat 64 bytes.length }),
      { session.asked call.cd flags with
        input := more
        tperrno := if rval = TPSUCCESS then 0 else BitVec.ofNat 32 TPESVCFAIL
        tpurcode := rcode }) := by
  obtain ⟨buffer, data⟩ := buffer
  have travels : wire tr.rcode = rcode := by
    have same : wire rcode = rcode := (wire_eq_self_iff rcode).mpr fits
    rw [code, same, same]
  have known : (tr.rval.setWidth 8 = TPSUCCESS.setWidth 8 ∨
      tr.rval.setWidth 8 = TPFAIL.setWidth 8) ∧
        (if tr.rval.setWidth 8 = TPFAIL.setWidth 8 then BitVec.ofNat 32 TPESVCFAIL else 0) =
          if rval = TPSUCCESS then 0 else BitVec.ofNat 32 TPESVCFAIL := by
    rw [status, returnStatus]
    split
    · exact ⟨.inl (by decide), by decide⟩
    · exact ⟨.inr (by decide), by decide⟩
  have available : (session.asked call.cd flags).input = replyFrame tr bytes ++ more := input
  rw [tpgetrply_run asks writable, readAnswer_reply data short available known.1, known.2,
    travels, data]
  split <;> rfl

end Return

section Answer

variable {call : Getrply} {session : Session} {returned : BitVec 32 × Option Getrply}

/-- From a call of `tpgetrply` to the next command the client is sent one answer. -/
theorem Called.answer
    (called : Called whole c σ events τ (tpgetrply (some call) flags) session returned after)
    (asks : call.len ≠ 0) (reach : Reachable PicksNew σ) (meets : Meets PicksNew σ events) :
    ∃ first e rest ρ ρ' frame, events = first ++ e :: rest ∧ run σ first = .ok ρ ∧
      step ρ e = .ok ρ' ∧ IsAnswer frame ∧ ρ.sent c = σ.sent c ∧ ρ'.sent c = ρ.sent c ++ frame ∧
      τ.sent c = ρ'.sent c := by
  have sends : stream c σ events =
      TPTGRPLY :: (shortBytes (call.cd.setWidth 16) ++ longBytes flags) := by
    apply called.sends
    rw [tpgetrply_run asks called.writable, readAnswer_output, Session.asked]
    simp
  exact called.starts.asks reach meets called.execution called.ends rfl sends

/-- The reply to a transaction that has failed: its status is none that a service routine
returns. -/
def IsFailure (frame : Bytes) : Prop :=
  ∃ tr contents, (tr.rval.setWidth 8 ≠ TPSUCCESS.setWidth 8 ∧
    tr.rval.setWidth 8 ≠ TPFAIL.setWidth 8) ∧ frame = replyFrame tr contents

theorem tpgetrply_failure {tr : Transaction} {contents more : Bytes} (asks : call.len ≠ 0)
    (writable : session.writable = true)
    (failed : tr.rval.setWidth 8 ≠ TPSUCCESS.setWidth 8 ∧ tr.rval.setWidth 8 ≠ TPFAIL.setWidth 8)
    (input : session.input = replyFrame tr contents ++ more) :
    tpgetrply (some call) flags session = ((-1, some call), { session.asked call.cd flags with
      input := longBytes tr.rcode ++ (longBytes ((BitVec.ofNat 32 contents.length).signExtend 64) ++
        (contents ++ more))
      tpurcode := 0
      tperrno := tr.cd.setWidth 32 }) := by
  have available : (session.asked call.cd flags).input =
      tr.rval.setWidth 8 :: shortBytes tr.cd ++ (longBytes tr.rcode ++
        (longBytes ((BitVec.ofNat 32 contents.length).signExtend 64) ++ (contents ++ more))) := by
    have input : (session.asked call.cd flags).input = _ := input
    rw [input, replyFrame]
    simp
  rw [tpgetrply_run asks writable, readAnswer_error available failed]

/-- A process in step is in step after `tpgetrply` exactly if it has not collected the reply to a
failed transaction. -/
theorem Called.inStep_iff
    (called : Called whole c σ events τ (tpgetrply (some call) flags) session returned after)
    (inStep : InStep whole c σ session) (reach : Reachable PicksNew σ)
    (meets : Meets PicksNew σ events) (asks : call.len ≠ 0)
    (buffer : ∃ buffer, call.data = some buffer) :
    InStep whole c τ after ↔ ∀ frame, τ.sent c = σ.sent c ++ frame → ¬IsFailure frame := by
  obtain ⟨_, _, _, ρ, ρ', frame, _, _, _, answer, unsent, sent, last⟩ :=
    called.answer asks reach meets
  rw [sent, unsent] at last
  have only : (∀ frame', τ.sent c = σ.sent c ++ frame' → ¬IsFailure frame') ↔ ¬IsFailure frame := by
    refine ⟨fun none => none frame last, fun none frame' same => ?_⟩
    rwa [List.append_cancel_left (same.symm.trans last)]
  obtain ⟨more, input, rest⟩ := inStep.reads last called.carried
  obtain ⟨buffer, data⟩ := buffer
  rw [only, InStep, rest, List.append_cancel_left_eq]
  rcases answer with ⟨errno, rfl⟩ | ⟨tr, contents, short, rfl⟩
  · have available : (session.asked call.cd flags).input = errorFrame errno ++ more := input
    have read : readAnswer call _ = _ := readAnswer_error available (by decide)
    rw [← tpgetrply_run asks called.writable, called.calls] at read
    obtain ⟨_, rfl⟩ := Prod.mk.inj read
    refine iff_of_true rfl ?_
    rintro ⟨tr, contents, _, same⟩
    have lengths := congrArg List.length same
    simp [errorFrame, replyFrame, IOLONG] at lengths
  · by_cases failed : tr.rval.setWidth 8 ≠ TPSUCCESS.setWidth 8 ∧
        tr.rval.setWidth 8 ≠ TPFAIL.setWidth 8
    · have read : tpgetrply (some call) flags session = _ :=
        tpgetrply_failure asks called.writable failed input
      rw [called.calls] at read
      obtain ⟨_, rfl⟩ := Prod.mk.inj read
      refine iff_of_false (fun same => ?_) (not_not.mpr ⟨tr, contents, failed, rfl⟩)
      have lengths := congrArg List.length same
      simp only [List.length_append, length_longBytes] at lengths
      have positive : 0 < IOLONG := by decide
      omega
    · have known : tr.rval.setWidth 8 = TPSUCCESS.setWidth 8 ∨
          tr.rval.setWidth 8 = TPFAIL.setWidth 8 := by
        rwa [not_and_or, not_not, not_not] at failed
      have available : (session.asked call.cd flags).input = replyFrame tr contents ++ more := input
      have read := readAnswer_reply data short available known
      rw [← tpgetrply_run asks called.writable, called.calls] at read
      obtain ⟨_, rfl⟩ := Prod.mk.inj read
      refine iff_of_true rfl ?_
      rintro ⟨tr', contents', failed', same⟩
      have status : tr.rval.setWidth 8 = tr'.rval.setWidth 8 := (List.cons.inj same).1
      rw [← status] at failed'
      exact failed failed'

theorem Called.inStep_of_returned {result : BitVec 32} {got : Option Getrply}
    (called : Called whole c σ events τ (tpgetrply (some call) flags) session (result, got) after)
    (inStep : InStep whole c σ session) (reach : Reachable PicksNew σ)
    (meets : Meets PicksNew σ events) (asks : call.len ≠ 0)
    (buffer : ∃ buffer, call.data = some buffer) (returned : result ≠ -1) :
    InStep whole c τ after := by
  refine (called.inStep_iff inStep reach meets asks buffer).mpr ?_
  rintro frame sent ⟨tr, contents, failed, rfl⟩
  obtain ⟨more, input, _⟩ := inStep.reads sent called.carried
  have read : tpgetrply (some call) flags session = _ :=
    tpgetrply_failure asks called.writable failed input
  rw [called.calls] at read
  exact returned (congrArg (fun outcome => outcome.1.1) read)

end Answer

end Library
end Xatmi
