import Xatmi.Library.Working
import Mathlib.Data.List.Infix

/-!
# A call from end to end

`tpcall` is `tpacall` and `tpgetrply`, one after the other. Between a client that makes a call and
the worker that is given the transaction there are two libraries and the switchboard, and any number
of other clients are served meanwhile; what the client gets is what the worker's routine returns for
what the client has sent.
-/

namespace Xatmi
namespace Library

open Switchboard

/-! ## The transaction of a call -/

/-- Wherever transaction `t` is dispatched in the run of `events`, it is to a worker that is in a
call of `tpservice` and was in step when it made the call. -/
def TakenUp (service : ClientId → Routines) (start : State) (events : List Event) (t : TranId) :
    Prop :=
  ∀ first e rest μ μ' a w, events = first ++ e :: rest → run start first = .ok μ →
    step μ e = .ok μ' → .dispatched a w t ∈ μ'.log → .dispatched a w t ∉ μ.log →
    ∃ whole pre head tail post σ τ svcinfo before result after, first = pre ++ head ∧
      rest = tail ++ post ∧ run start pre = .ok σ ∧ σ.AtCommand w ∧ InStep whole w σ before ∧
      Called whole w σ (head ++ e :: tail) τ (tpservice (answering (service w)) (some svcinfo))
        before result after

variable {service : ClientId → Routines} {start σ τ : State} {events : List Event} {t : TranId}
  {tr : Transaction} {svc bytes : Bytes}

theorem first_dispatch (execution : run start events = .ok τ) (reach : Reachable anyStep start)
    (new : ¬start.Dispatched t) (given : τ.Dispatched t) :
    ∃ first e rest μ μ' a w, events = first ++ e :: rest ∧ run start first = .ok μ ∧
      step μ e = .ok μ' ∧ ¬μ.Dispatched t ∧ .dispatched a w t ∈ μ'.log := by
  induction events generalizing start with
  | nil =>
      obtain rfl := Except.ok.inj execution
      exact absurd given new
  | cons e events ih =>
      obtain ⟨μ, done, execution⟩ := run_cons_ok_iff.mp execution
      by_cases now : μ.Dispatched t
      · obtain ⟨a, w, seen⟩ := now
        exact ⟨[], e, events, start, μ, a, w, rfl, rfl, done, new, seen⟩
      · obtain ⟨first, e', rest, ρ, ρ', a, w, rfl, ran, done', new', seen⟩ :=
          ih execution (.next reach trivial done) now
        exact ⟨e :: first, e', rest, ρ, ρ', a, w, rfl, run_cons_ok_iff.mpr ⟨μ, done, ran⟩, done',
          new', seen⟩

/-- Worker `w` executes a call of service `svc` by the routine at `func`, the address that it has
advertised, and the routine finds in `info` what the client has sent. -/
structure Executed (start : State) (events : List Event) (svc bytes : Bytes) (tr : Transaction)
    (w : ClientId) (func : BitVec 64) (info : TPSVCINFO) : Prop where
  advertised : ∃ first rest μ, events = first ++ rest ∧ run start first = .ok μ ∧
    μ.offers w (cname svc) = some func
  name : cname info.name = cname svc
  len : info.len = BitVec.ofNat 64 bytes.length
  flags : info.flags = wire tr.flags
  cd : info.cd = tr.cd.setWidth 32
  data : info.data = some bytes

/-! ## The answer -/

theorem len_ne_of_tpgetrply {call : Getrply} {flags : BitVec 64} {session after : Session}
    {result : BitVec 32} {got : Option Getrply}
    (calls : tpgetrply (some call) flags session = ((result, got), after))
    (returned : result ≠ -1) : call.len ≠ 0 := by
  intro zero
  simp only [tpgetrply, if_pos zero] at calls
  exact returned (congrArg (fun outcome => outcome.1.1) calls).symm

theorem error_of_frame {call : Getrply} {flags : BitVec 64} {session after : Session}
    {result : BitVec 32} {got : Option Getrply} {status : Byte} {errno : BitVec 16} {more : Bytes}
    (calls : tpgetrply (some call) flags session = ((result, got), after))
    (writable : session.writable = true)
    (input : session.input = status :: shortBytes errno ++ more)
    (noReply : status ≠ TPSUCCESS.setWidth 8 ∧ status ≠ TPFAIL.setWidth 8) : result = -1 := by
  by_contra returned
  have input : (session.asked call.cd flags).input = status :: shortBytes errno ++ more := input
  rw [tpgetrply_run (len_ne_of_tpgetrply calls returned) writable,
    readAnswer_error input noReply] at calls
  exact returned (congrArg (fun outcome => outcome.1.1) calls).symm

/-- What a call of `tpgetrply` has found is the reply to transaction `tr`, with the result `r`. -/
structure Collects (call : Getrply) (tr : Transaction) (r : Result) (result : BitVec 32)
    (got : Option Getrply) (after : Session) : Prop where
  result : result = tr.cd.setWidth 32
  got : got = some
    { cd := tr.cd.setWidth 32
      data := if r.bytes = [] then call.data else some r.bytes
      len := BitVec.ofNat 64 r.len }
  tperrno : after.tperrno = if r.rval = TPSUCCESS then 0 else BitVec.ofNat 32 TPESVCFAIL
  tpurcode : after.tpurcode = wire r.rcode

theorem wire_wire (val : BitVec 64) : wire (wire val) = wire val := by
  rw [← BitVec.toInt_inj, toInt_wire, toInt_wire, Int.bmod_bmod]

theorem collects_of_frame {call : Getrply} {flags : BitVec 64} {session after : Session}
    {result : BitVec 32} {got : Option Getrply} {more : Bytes} {b : BufId} {r : Option Result}
    (calls : tpgetrply (some call) flags session = ((result, got), after))
    (writable : session.writable = true) (buffer : ∃ buffer, call.data = some buffer)
    (returned : result ≠ -1)
    (input : session.input = replyFrame (tr.returned (resultHeader r) b) (resultBytes r) ++ more) :
    ∃ r', r = some r' ∧ Collects call tr r' result got after := by
  cases r with
  | none =>
      simp only [replyFrame, List.append_assoc, List.singleton_append] at input
      have status : (tr.returned (resultHeader none) b).rval = TPERRNO := by
        change (TPERRNO.setWidth 8).signExtend 32 = TPERRNO
        decide
      rw [status] at input
      exact absurd (error_of_frame calls writable input (by decide)) returned
  | some r =>
      have fits := (wire_eq_self_iff (wire r.rcode)).mp (wire_wire r.rcode)
      have short : r.bytes.length < 2 ^ 31 := by
        rw [r.length_bytes]
        exact r.short
      have status : (tr.returned (resultHeader (some r)) b).rval =
          (returnStatus r.rval).signExtend 32 := by
        rw [resultHeader, returned_returnMessage]
      have code : (tr.returned (resultHeader (some r)) b).rcode = wire (wire r.rcode) := by
        rw [resultHeader, returned_returnMessage, wire_wire]
      have read := tpgetrply_reply _ flags fits short status code
        (len_ne_of_tpgetrply calls returned) buffer writable input
      obtain ⟨outcome, rfl⟩ := Prod.mk.inj (calls.symm.trans read)
      obtain ⟨rfl, rfl⟩ := Prod.mk.inj outcome
      refine ⟨r, rfl, rfl, ?_, rfl, rfl⟩
      rw [r.length_bytes]
      rfl

/-- The step in which `svrgetrply` is called for a `tpgetrply`; until then no other transaction gets
the descriptor. -/
theorem Called.requests {whole : Bytes} {c : ClientId} {cd : BitVec 16} {call : Getrply}
    {flags : BitVec 64} {session after : Session} {returned : BitVec 32 × Option Getrply}
    (asked : Called whole c σ events τ (tpgetrply (some call) flags) session returned after)
    (reach : Reachable PicksNew σ) (meets : Meets PicksNew σ events) (asks : call.len ≠ 0)
    (named : call.cd = cd.setWidth 32) (only : σ.Only c cd t) :
    ∃ first e tail ρ ρ', events = first ++ e :: tail ∧ run σ first = .ok ρ ∧ step ρ e = .ok ρ' ∧
      run ρ' tail = .ok τ ∧ Received ρ e c .svrgetrply (shortBytes cd ++ longBytes flags) ∧
      ρ.sent c = σ.sent c ∧ ρ.Only c cd t := by
  have narrow : call.cd.setWidth 16 = cd := by
    rw [named, BitVec.setWidth_setWidth_of_le _ (by decide), BitVec.setWidth_eq]
  have sends : stream c σ events = TPTGRPLY :: ((shortBytes cd ++ longBytes flags) ++ []) := by
    apply asked.sends
    rw [tpgetrply_run asks asked.writable, readAnswer_output, Session.asked, narrow]
    simp
  obtain ⟨first, e, tail, ρ, ρ', split, ran, done, execution, received, _, unsent, only'⟩ :=
    asked.starts.message (motive := fun μ => μ.Only c cd t) reach meets asked.execution rfl
      (by simp [shortBytes]) sends only
      (fun μ e μ' reach _ passes _ done _ only =>
        only.step (inv_of_reachable reach) (passes.incomplete _) done)
      (fun μ e μ' filled reach _ received _ done _ only => by
        refine only.step (inv_of_reachable reach) (fun filled' other => ?_) done
        cases received.symm.trans other)
  exact ⟨first, e, tail, ρ, ρ', split, ran, done, execution, received, unsent, only'⟩

section Call

variable {pre post : List Event} {e : Event} (uploaded : Uploaded σ τ t tr svc bytes)
  (reach : Reachable PicksNew start) (meets : Meets PicksNew start events)
  (split : events = pre ++ e :: post) (ran : run start pre = .ok σ) (done : step σ e = .ok τ)
  (taken : TakenUp service start events t)

include uploaded reach meets split ran done taken

/-- Once the transaction of a call has been dispatched, the worker's result concludes it. -/
theorem Uploaded.concluded {upto rest : List Event} {κ : State} (here : events = upto ++ rest)
    (execution : run start upto = .ok κ) (given : κ.Dispatched t) :
    ∃ w func info first e' rest' ρ ρ' b, ∃ tr' : Transaction,
      Executed start events svc bytes tr w func info ∧
      events = first ++ e' :: rest' ∧ run start first = .ok ρ ∧ step ρ e' = .ok ρ' ∧
      Returns ρ e' w ∧ (∃ current, ρ.tran t = some current) ∧ tr'.place = tr.place ∧
      Concludes ρ ρ' t (tr'.returned (resultHeader (service w (wire func) info)) b)
        (resultBytes (service w (wire func) info)) := by
  have any : Reachable anyStep start := reach.mono fun _ _ _ => trivial
  have anyσ : Reachable anyStep σ := any.run ran
  have unborn : ¬start.Dispatched t := fun given => uploaded.new (dispatched_mono any given ran)
  obtain ⟨first, e', rest₁, μ, μ', a, w, rfl, ran₁, done₁, new, seen⟩ :=
    first_dispatch execution any unborn given
  have place : events = first ++ e' :: (rest₁ ++ rest) := by rw [here]; simp
  have anyμ : Reachable anyStep μ := any.run ran₁
  obtain ⟨⟨v, svc₀, advert, owner, service₀, sent⟩, between, toμ⟩ :=
    uploaded.settles.delivered any ran done uploaded.new (split.symm.trans place) ran₁
      done₁ new seen
  obtain ⟨whole, pre', head, tail, post', σ', τ', svcinfo, before, result, after, rfl, tail_eq,
      ran', ready, inStep, called⟩ := taken first e' (rest₁ ++ rest) μ μ' a w place ran₁ done₁ seen
      fun before => new ⟨a, w, before⟩
  rw [place, tail_eq, List.append_assoc] at meets
  obtain ⟨_, ran'', toμ'⟩ := run_append_ok_iff.mp ran₁
  obtain rfl := Except.ok.inj (ran'.symm.trans ran'')
  have round : Meets PicksNew σ' ((head ++ e' :: tail) ++ post') := by
    simpa using meets.drop ran'
  obtain ⟨_, ⟨v', tr', svc', data', info, handed, decodes, first₂, e₂, rest₂, ρ, ρ', b, rfl, ran₂,
    done₂, returns, lives, concludes⟩, _⟩ :=
      called.attends inStep (reach.meets meets.take ran') round.take ready rfl toμ' done₁ seen
        fun before => new ⟨a, w, before⟩
  obtain rfl := Option.some.inj (advert.symm.trans handed.advert)
  have sized := sized_of_reachable anyμ
  have decodes' := decodes.of_frame (sized.name _ svc₀ service₀) (sized.name _ svc' handed.service)
    (List.append_cancel_left (sent.symm.trans handed.sent))
  have named : cname svc₀.svcname = cname svc := uploaded.name between μ svc₀ toμ service₀
  have same : tr'.place = tr.place := by
    have later : ∀ {more}, run τ more = .ok μ' → tr'.place = tr.place :=
      fun execution => uploaded.place _ μ' tr' execution handed.found
    rcases run_cases (split.symm.trans place) ran done ran₁ done₁ with
      ⟨_, _, _, _, rfl⟩ | ⟨_, _, toμ⟩ | ⟨_, _, toσ⟩
    · exact later (show run τ [] = .ok τ from rfl)
    · exact later (run_concat_ok_iff.mpr ⟨μ, toμ, done₁⟩)
    · exact absurd (dispatched_mono (.next anyμ trivial done₁) ⟨a, w, seen⟩ toσ) uploaded.new
  refine ⟨w, v.opaqueFunc, info, (pre' ++ head) ++ e' :: first₂, e₂, rest₂ ++ post', ρ, ρ', b, tr',
    ?_, ?_, ?_, done₂, returns, lives, same, concludes⟩
  · refine ⟨⟨pre' ++ head, e' :: (rest₁ ++ rest), μ, place, ran₁, ?_⟩, ?_, decodes'.len,
      decodes'.flags, decodes'.cd, decodes'.data⟩
    · have offers := pointer_of_advert (inv_of_reachable anyμ) advert owner handed.service
      rwa [← decodes.name, decodes'.name, named] at offers
    · rw [decodes'.name, named]
  · rw [place, tail_eq]
    simp
  · exact run_append_ok_iff.mpr ⟨μ, ran₁, run_cons_ok_iff.mpr ⟨μ', done₁, ran₂⟩⟩

/-- A client in step that asks for the reply, and is not given an error, gets the result of the
worker's routine. -/
theorem Uploaded.answered {whole : Bytes} {between asking rest : List Event} {κ ω : State}
    {call : Getrply} {flags : BitVec 64} {result : BitVec 32} {got : Option Getrply}
    {session after : Session} (later : post = between ++ (asking ++ rest))
    (meanwhile : run τ between = .ok κ)
    (asked : Called whole tr.client κ asking ω (tpgetrply (some call) flags) session (result, got)
      after)
    (inStep : InStep whole tr.client κ session) (only : κ.Only tr.client tr.cd t)
    (named : call.cd = tr.cd.setWidth 32) (one : wire flags &&& TPGETANY = 0)
    (buffer : ∃ buffer, call.data = some buffer) (returned : result ≠ -1) :
    ∃ w func info r, Executed start events svc bytes tr w func info ∧
      service w (wire func) info = some r ∧ Collects call tr r result got after ∧
      InStep whole tr.client ω after := by
  have asks := len_ne_of_tpgetrply asked.calls returned
  have upto : events = (pre ++ e :: between) ++ (asking ++ rest) := by
    rw [split, later]
    simp
  have toκ : run start (pre ++ e :: between) = .ok κ :=
    run_append_ok_iff.mpr ⟨σ, ran, run_cons_ok_iff.mpr ⟨τ, done, meanwhile⟩⟩
  have meetsκ : Meets PicksNew start ((pre ++ e :: between) ++ (asking ++ rest)) := upto ▸ meets
  have reachκ : Reachable PicksNew κ := reach.meets meetsκ.take toκ
  have inStep' := asked.inStep_of_returned inStep reachκ (meetsκ.drop toκ).take asks buffer returned
  obtain ⟨first, e', tail, ρ, ρ', rfl, ran', done', execution', received, unsent, only'⟩ :=
    asked.requests reachκ (meetsκ.drop toκ).take asks named only
  set body := shortBytes tr.cd ++ longBytes flags with body_eq
  have cd : toshort body = tr.cd := toshort_shortBytes_append _ _
  have single : ¬AsksAny body := by
    have rest : body.drop IOSHORT = longBytes flags := rfl
    rw [AsksAny, rest, tolong_longBytes]
    exact not_not.mpr one
  have upto' : events = ((pre ++ e :: between) ++ first) ++ e' :: (tail ++ rest) := by
    rw [upto]
    simp
  have toρ : run start ((pre ++ e :: between) ++ first) = .ok ρ :=
    run_append_ok_iff.mpr ⟨κ, toκ, ran'⟩
  have meetsρ : Meets PicksNew start (((pre ++ e :: between) ++ first) ++ e' :: (tail ++ rest)) :=
    upto' ▸ meets
  have reachρ : Reachable PicksNew ρ := reach.meets meetsρ.take toρ
  have meetsρ' : Meets PicksNew ρ ((e' :: tail) ++ rest) := meetsρ.drop toρ
  have anyρ' : Reachable anyStep ρ' := (reachρ.next meetsρ'.1 done').mono fun _ _ _ => trivial
  have reads : ∀ {frame}, ρ.sent tr.client ++ frame <+: ω.sent tr.client →
      ∃ more, session.input = frame ++ more := by
    intro frame grows
    rw [unsent] at grows
    obtain ⟨more, input, _⟩ := inStep.front (grows.trans asked.carried)
    exact ⟨more, input⟩
  have noError : ¬∃ errno, ρ'.sent tr.client = ρ.sent tr.client ++ errorFrame errno := by
    rintro ⟨errno, refused⟩
    obtain ⟨more, input⟩ := reads (refused ▸ sent_of_run anyρ' execution' tr.client)
    exact returned (error_of_frame asked.calls asked.writable input (by decide))
  have given : ω.Dispatched t := (dispatched_of_asked reachρ meetsρ'.take received single
    (cd ▸ only') done' execution' asked.ends).resolve_left noError
  obtain ⟨w, func, info, first', e'', rest', μ, μ', b, tr', executed, split', ran'',
    done'', returns, ⟨current, found⟩, place, concludes⟩ :=
      uploaded.concluded reach meets split ran done taken
        (upto.trans (List.append_assoc _ _ _).symm)
        (run_append_ok_iff.mpr ⟨κ, toκ, asked.execution⟩) given
  have kept : (tr'.returned (resultHeader (service w (wire func) info)) b).place = tr.place := place
  have arrives :=
    (answer_arrives reach meetsρ (upto'.symm.trans split') toρ done' execution' received
      single (cd ▸ only') asked.ends (client_of_place kept) (cd.trans (cd_of_place kept).symm) ran''
      done'' returns found concludes).resolve_left noError
  obtain ⟨more, input⟩ := reads arrives
  obtain ⟨r, result_eq, replied⟩ :=
    collects_of_frame asked.calls asked.writable buffer returned input
  refine ⟨w, func, info, r, executed, result_eq, ⟨?_, ?_, replied.tperrno, replied.tpurcode⟩,
    inStep'⟩
  · rw [replied.result, cd_of_place place]
  · rw [replied.got, cd_of_place place]

end Call

/-! ## `tpcall.c` -/

/-- `tpcall`; `out` is what `odata` and `olen` point to, and `none` stands for a null pointer. -/
def tpcall (svc idata : Option Bytes) (ilen : BitVec 64) (out : Option (Option Bytes × BitVec 64))
    (flags : BitVec 64) :
    Lib (BitVec 32 × Option (Option Bytes × BitVec 64)) := do
  let cd ← tpacall svc idata ilen flags
  if cd ≠ -1 then do
    let (result, args) ← tpgetrply (out.map fun (data, len) => { cd, data, len }) flags
    pure (result, args.map fun args => (args.data, args.len))
  else
    pure (-1, out)

section Tpcall

variable {c : ClientId} {data buffer : Option Bytes} {n : Nat} {len flags : BitVec 64}
  {result : BitVec 32} {got : Option (Option Bytes × BitVec 64)} {before after : Session}

theorem tpcall_run {between : Session} {cd : BitVec 32} {args : Option Getrply}
    (called : tpacall (some svc) data (BitVec.ofNat 64 n) flags before = (cd, between))
    (accepted : cd ≠ -1)
    (asked : tpgetrply (some { cd, data := buffer, len }) flags between =
      ((result, args), after)) :
    tpcall (some svc) data (BitVec.ofNat 64 n) (some (buffer, len)) flags before =
      ((result, args.map fun args => (args.data, args.len)), after) := by
  simp only [tpcall, bind_run, called, if_pos accepted, Option.map_some, asked]
  rfl

theorem tpgetrply_output (call : Getrply) (flags : BitVec 64) (session : Session) :
    ∃ more, (tpgetrply (some call) flags session).2.output = session.output ++ more := by
  by_cases zero : call.len = 0
  · exact ⟨[], by simp only [tpgetrply, if_pos zero, List.append_nil]; rfl⟩
  · cases writable : session.writable with
    | true =>
        rw [tpgetrply_run zero writable, readAnswer_output]
        exact ⟨[TPTGRPLY] ++ shortBytes (call.cd.setWidth 16) ++ longBytes flags,
          by simp [Session.asked]⟩
    | false =>
        refine ⟨[], ?_⟩
        have fails : askReply call.cd flags session =
            (false, { session with tpurcode := TX_FAIL.signExtend 64 }) := by
          simp only [askReply, andM, bind_run, succeeds_run, txWriteb, txWrite_fails writable]
          rfl
        simp only [tpgetrply, if_neg zero, bind_run, fails, List.append_nil]
        rfl

theorem Called.tpcall_parts {whole : Bytes}
    (called : Called whole c σ events τ
      (tpcall (some svc) data (BitVec.ofNat 64 n) (some (buffer, len)) flags) before (result, got)
      after)
    (inStep : InStep whole c σ before) (reach : Reachable anyStep σ)
    (full : XATMI_SERVICE_NAME_LENGTH ≤ svc.length) (short : n < 2 ^ 31)
    (enough : n ≤ (data.getD []).length) (returned : result ≠ -1) :
    ∃ first e tail μ κ t tr between args, events = first ++ e :: tail ∧ run σ first = .ok μ ∧
      step μ e = .ok κ ∧
      Uploaded μ κ t tr (svc.take XATMI_SERVICE_NAME_LENGTH) ((data.getD []).take n) ∧
      tr.client = c ∧ tr.flags = wire flags ∧ σ.next ≤ t ∧
      Called whole c κ tail τ
        (tpgetrply (some { cd := tr.cd.setWidth 32, data := buffer, len }) flags) between
        (result, args) after ∧
      InStep whole c κ between ∧ got = args.map fun args => (args.data, args.len) := by
  obtain ⟨rest, output⟩ :=
    sendData_output data (BitVec.ofNat 64 n) (before.calling svc (BitVec.ofNat 64 n) flags)
  rw [← tpacall_run called.writable, calling_output, List.append_assoc] at output
  rcases submits : Library.tpacall (some svc) data (BitVec.ofNat 64 n) flags before with
    ⟨cd, between⟩
  rw [submits] at output
  have accepted : cd ≠ -1 := by
    rintro rfl
    have calls := called.calls
    simp only [tpcall, bind_run, submits] at calls
    exact returned (congrArg (fun outcome => outcome.1.1) calls).symm
  rcases asks : tpgetrply (some { cd, data := buffer, len }) flags between with
    ⟨⟨result', args⟩, after'⟩
  obtain ⟨outcome, rfl⟩ := Prod.mk.inj ((tpcall_run submits accepted asks).symm.trans called.calls)
  obtain ⟨rfl, rfl⟩ := Prod.mk.inj outcome
  obtain ⟨more, output'⟩ := tpgetrply_output { cd, data := buffer, len } flags between
  rw [asks] at output'
  have name : (svc.take XATMI_SERVICE_NAME_LENGTH).length = XATMI_SERVICE_NAME_LENGTH :=
    List.length_take_of_le full
  have sends : stream c σ events = TPTCALL ::
      (callMessage (svc.take XATMI_SERVICE_NAME_LENGTH) (BitVec.ofNat 64 n) flags ++
        (rest ++ more)) := by
    have written := called.written
    rw [output', output, List.append_assoc] at written
    simpa using (List.append_cancel_left written).symm
  obtain ⟨first, e, tail, ρ, ρ', rfl, ran, done, execution, received, left, unsent, outcome⟩ :=
    reading_calls reach called.starts called.execution name short sends
  have reachρ : Reachable anyStep ρ := reach.run ran
  have reachρ' : Reachable anyStep ρ' := .next reachρ trivial done
  have carried : ρ'.sent c <+: whole := (sent_of_run reachρ' execution c).trans called.carried
  rcases outcome with ⟨_, refused⟩ | ⟨s, t, tr, service, made, new, current, granted, outcome⟩
  · rw [unsent] at refused
    obtain ⟨_, available, _⟩ := inStep.reads refused carried
    have answer := tpacall_refused svc data (BitVec.ofNat 64 n) flags called.writable available
    exact absurd (Prod.mk.inj (submits.symm.trans answer)).1 accepted
  · rw [unsent] at granted
    obtain ⟨later, available, whole_eq⟩ := inStep.reads granted carried
    have answer := tpacall_accepted svc flags called.writable short enough available
    obtain ⟨rfl, left_⟩ := Prod.mk.inj (submits.symm.trans answer)
    have rest_eq : (data.getD []).take n = rest := by
      rw [left_, calling_output, List.append_assoc] at output
      simpa using output
    obtain ⟨first', e', tail', μ, κ, split, ran', done', execution', uploaded, reading, unsent',
      asking⟩ := uploaded_of_call reachρ done execution service made new current outcome
        (List.length_take_of_le enough) (rest_eq ▸ left)
    refine ⟨first ++ first', e', tail', μ, κ, t, tr, between, args, ?_,
      run_append_ok_iff.mpr ⟨ρ, ran, ran'⟩, done', uploaded, by rw [made]; rfl, by rw [made]; rfl,
      (next_le_of_run reach ran).trans new,
      ⟨reading, execution', called.ends, ?_, asks, ?_, called.carried⟩, ?_, rfl⟩
    · rw [split, List.append_assoc]
    · rw [left_]
      exact called.writable
    · rw [output', asking]
    · rw [InStep, unsent', whole_eq, left_]

/-- The transactions of client `c` have different descriptors. -/
def Distinct (σ : State) (c : ClientId) : Prop :=
  ∀ t t' tr tr', σ.tran t = some tr → σ.tran t' = some tr' → tr.client = c → tr'.client = c →
    tr.cd = tr'.cd → t = t'

/-- A call of `tpcall` that returns no error returns what the worker's routine for the service has
returned, called with what `tpcall` was given: whatever other clients do meanwhile, as long as the
client and whoever is given the transaction are in step, the latter in a call of `tpservice`, no
transaction is dispatched twice, and no two transactions of the client have one descriptor. -/
theorem tpcall_returns {whole : Bytes} {pre calling post : List Event} {contents : Bytes}
    (reach : Reachable PicksNew start) (meets : Meets PicksNew start events)
    (split : events = pre ++ (calling ++ post)) (ran : run start pre = .ok σ)
    (called : Called whole c σ calling τ
      (tpcall (some svc) data (BitVec.ofNat 64 n) (some (some contents, len)) flags) before
      (result, got) after)
    (inStep : InStep whole c σ before) (full : XATMI_SERVICE_NAME_LENGTH ≤ svc.length)
    (short : n < 2 ^ 31) (enough : n ≤ (data.getD []).length) (one : wire flags &&& TPGETANY = 0)
    (returned : result ≠ -1)
    (distinct : ∀ first rest μ, events = first ++ rest → run start first = .ok μ → Distinct μ c)
    (taken : ∀ t, σ.next ≤ t → TakenUp service start events t) :
    InStep whole c τ after ∧ ∃ w func info r,
      (∃ first rest μ, events = first ++ rest ∧ run start first = .ok μ ∧
        μ.offers w (cname (svc.take XATMI_SERVICE_NAME_LENGTH)) = some func) ∧
      cname info.name = cname (svc.take XATMI_SERVICE_NAME_LENGTH) ∧ info.len = BitVec.ofNat 64 n ∧
      info.flags = wire flags ∧ info.cd = result ∧ info.data = some ((data.getD []).take n) ∧
      service w (wire func) info = some r ∧
      got = some (if r.bytes = [] then some contents else some r.bytes, BitVec.ofNat 64 r.len) ∧
      after.tperrno = (if r.rval = TPSUCCESS then 0 else BitVec.ofNat 32 TPESVCFAIL) ∧
      after.tpurcode = wire r.rcode := by
  have any : Reachable anyStep σ := (reach.mono fun _ _ _ => trivial).run ran
  obtain ⟨first, e, tail, μ, κ, t, tr, between, args, rfl, ran', done, uploaded, rfl, flag,
    new, asked, inStep', rfl⟩ := called.tpcall_parts inStep any full short enough returned
  have place : events = (pre ++ first) ++ e :: (tail ++ post) := by
    rw [split]
    simp
  have toμ : run start (pre ++ first) = .ok μ := run_append_ok_iff.mpr ⟨σ, ran, ran'⟩
  have toκ : run start ((pre ++ first) ++ [e]) = .ok κ := run_concat_ok_iff.mpr ⟨μ, toμ, done⟩
  have only : κ.Only tr.client tr.cd t := by
    intro t' tr' found owner same
    obtain ⟨tr₀, found₀⟩ := uploaded.lives
    have place₀ := uploaded.place [] κ tr₀ rfl found₀
    exact distinct _ (tail ++ post) κ (by rw [place]; simp) toκ t' t tr' tr₀ found found₀ owner
      (client_of_place place₀) (same.trans (cd_of_place place₀).symm)
  obtain ⟨w, func, info, r, executed, result_eq, replied, inStep''⟩ :=
    uploaded.answered reach meets place toμ done (taken t new) (List.nil_append _).symm rfl asked
      inStep' only rfl one ⟨contents, rfl⟩ returned
  refine ⟨inStep'', w, func, info, r, executed.advertised, executed.name, ?_, ?_,
    executed.cd.trans replied.result.symm, executed.data, result_eq, ?_, replied.tperrno,
    replied.tpurcode⟩
  · rw [executed.len, List.length_take_of_le enough]
  · rw [executed.flags, flag, wire_wire]
  · rw [replied.got]
    rfl

end Tpcall

/-! ## One call -/

open Scenario

/-- Client 2 calls `A`, worker 0 returns, and client 2 asks for the reply. -/
def oneCall : List Event :=
  call 2 65 0 9 ++ returning ++ [requesting, collecting]

/-- What `tpcall` finds and leaves. -/
def tpcalling : Session :=
  { input := [0, 9, 0] ++ successFrame }

def tpcalled : Session :=
  { input := []
    output := TPTCALL :: callMessage (svcname 65) 0 0 ++ TPTGRPLY :: (shortBytes 9 ++ longBytes 0)
    tpurcode := 5 }

/-- Who has been given what. -/
def dispatches (σ : State) : List (AdvertId × ClientId × TranId) :=
  σ.log.filterMap fun | .dispatched a w t => some (a, w, t) | .handled .. => none

/-- Worker 0 rests when client 2 calls, and is given transaction 11. -/
def showsAnswer (start : State) : Bool :=
  permitted PicksNew start (work 0 ++ oneCall) && (showsFirstRound start &&
    ((work 0 ++ oneCall).inits.all (fun first => (run start first).toOption.all fun (μ : State) =>
      decide (μ.transactions.length ≤ 1)) &&
    (run start (work 0)).toOption.any (fun (σ : State) =>
      decide (σ.sent 2 = []) && (run σ oneCall).toOption.any fun (τ : State) =>
        showsCalled 2 σ oneCall τ tpcalled.output tpcalling.input &&
          decide (dispatches τ = [(6, 0, 11)]))))

theorem distinct_of_length (inv : Inv ⟨{}, σ⟩) (few : σ.transactions.length ≤ 1) (c : ClientId) :
    Distinct σ c := by
  intro t t' tr tr' found found' _ _ _
  have here := (inv.own.mem_transactions t).mpr ⟨tr, found⟩
  have there := (inv.own.mem_transactions t').mpr ⟨tr', found'⟩
  revert here there few
  rcases σ.transactions with _ | ⟨u, _ | ⟨_, _⟩⟩ <;> simp
  rintro rfl rfl
  rfl

theorem takenUp_of_shows (reach : Reachable anyStep start) (round : showsFirstRound start = true)
    (execution : run start (work 0 ++ oneCall) = .ok τ) (given : dispatches τ = [(6, 0, 11)])
    (t : TranId) : TakenUp (fun _ => twoBytes) start (work 0 ++ oneCall) t := by
  intro first e rest μ₁ μ₁' a w split ran₁ done₁ seen fresh
  obtain ⟨ready, inStep, ⟨ω, _, worked⟩, μ, μ', ran', done', fresh', given'⟩ :=
    called_firstRound [] round
  have last : run μ₁' rest = .ok τ := run_of_split (split ▸ execution) ran₁ done₁
  have only : (a, w, t) ∈ dispatches τ := by
    refine List.mem_filterMap.mpr ⟨_, log_of_run ?_ seen last, rfl⟩
    exact .next (reach.run ran₁) trivial done₁
  rw [given, List.mem_singleton, Prod.mk.injEq, Prod.mk.injEq] at only
  obtain ⟨rfl, rfl, rfl⟩ := only
  have split' : (work 0 ++ [receive 2 [TPTCALL] 0]) ++
      calledNine :: (returning ++ [requesting, collecting]) = first ++ e :: rest := split
  rcases run_cases split' ran' done' ran₁ done₁ with
    ⟨rfl, rfl, rfl, rfl, rfl⟩ | ⟨_, _, later⟩ | ⟨_, _, later⟩
  · exact ⟨_, [], _, returning, [requesting, collecting], start, ω, _, _, _, _, rfl, rfl,
      rfl, ready, inStep, worked⟩
  · exact absurd (log_of_run (.next (reach.run ran') trivial done') given' later) fresh
  · exact absurd (log_of_run (.next (reach.run ran₁) trivial done₁) seen later) fresh'

/-- Client 2 calls while worker 0 rests, and gets the two bytes that worker 0 returns. -/
theorem tpcall_returns_resting : ∃ σ τ : State,
    InStep tpcalling.input 2 σ tpcalling ∧
    Called tpcalling.input 2 σ oneCall τ (tpcall (some (svcname 65)) none 0 (some (some [], 1)) 0)
      tpcalling (9, some (some [7, 8], 2)) tpcalled ∧
    InStep tpcalling.input 2 τ tpcalled ∧
    ∃ (func : BitVec 64) (info : TPSVCINFO) (r : Result), info.data = some [] ∧
      twoBytes (wire func) info = some r ∧
      some (some [7, 8], (2 : BitVec 64)) =
        some (if r.bytes = [] then some [] else some r.bytes, BitVec.ofNat 64 r.len) := by
  obtain ⟨start, reach, seen⟩ := reachable_of_permitted ([connect, connect] ++ advertising 7)
    showsAnswer true (show permitted PicksNew _ _ = true by decide +kernel) (by decide +kernel)
  obtain ⟨new, seen⟩ := Bool.and_eq_true_iff.mp seen
  obtain ⟨round, seen⟩ := Bool.and_eq_true_iff.mp seen
  obtain ⟨few, seen⟩ := Bool.and_eq_true_iff.mp seen
  obtain ⟨σ, ran, seen⟩ := ok_of_any seen
  obtain ⟨opened, seen⟩ := Bool.and_eq_true_iff.mp seen
  have opened : σ.sent 2 = [] := of_decide_eq_true opened
  obtain ⟨τ, execution, seen⟩ := ok_of_any seen
  obtain ⟨served, given⟩ := Bool.and_eq_true_iff.mp seen
  have any : Reachable anyStep start := reach.mono fun _ _ _ => trivial
  have inStep : InStep tpcalling.input 2 σ tpcalling := by
    rw [InStep, opened, List.nil_append]
  have called : Called tpcalling.input 2 σ oneCall τ
      (tpcall (some (svcname 65)) none (BitVec.ofNat 64 0) (some (some [], 1)) 0) tpcalling
      (9, some (some [7, 8], 2)) tpcalled :=
    .of_shows execution served rfl rfl rfl List.prefix_rfl
  have distinct : ∀ first rest μ, work 0 ++ oneCall = first ++ rest → run start first = .ok μ →
      Distinct μ 2 := by
    intro first rest μ split ran
    have prefixes := List.all_eq_true.mp few first ((List.mem_inits _ _).mpr ⟨rest, split.symm⟩)
    rw [ran] at prefixes
    exact distinct_of_length (inv_of_reachable (any.run ran)) (of_decide_eq_true prefixes) 2
  have taken : ∀ t, σ.next ≤ t → TakenUp (fun _ => twoBytes) start (work 0 ++ oneCall) t :=
    fun t _ => takenUp_of_shows any round (run_append_ok_iff.mpr ⟨σ, ran, execution⟩)
      (of_decide_eq_true given) t
  obtain ⟨inStep', w, func, info, r, _, _, _, _, _, contents, result, got, _⟩ :=
    tpcall_returns reach (.of_permitted new) (by rw [List.append_nil]) ran called inStep (by decide)
      (by decide) (by decide) (by decide) (by decide) distinct taken
  exact ⟨σ, τ, inStep, called, inStep', func, info, r, contents, result, got⟩

end Library
end Xatmi
