import Xatmi.Library.Pointers
import Xatmi.Library.Returns

/-!
# Workers

A worker calls `tpservice` over and over.  In each call it is given one transaction, however long it
has to wait, and the result of the service routine concludes that transaction before the worker asks
for another.
-/

namespace Xatmi
namespace Library

open Switchboard

/-! ## Service routines -/

/-- What a service routine gives to `tpreturn`. -/
structure Result where
  rval : BitVec 32
  rcode : BitVec 64
  data : Option Bytes
  len : Nat
  short : len < 2 ^ 31
  enough : len ≤ (data.getD []).length

/-- The data that is returned. -/
def Result.bytes (r : Result) : Bytes :=
  (r.data.getD []).take r.len

theorem Result.length_bytes (r : Result) : r.bytes.length = r.len :=
  List.length_take_of_le r.enough

/-- What the routines at the addresses of a worker return; `none` for one that is left without
`tpreturn`. -/
abbrev Routines := BitVec 64 → TPSVCINFO → Option Result

/-- The routines as code. -/
def answering (service : Routines) (func : BitVec 64) (svcinfo : TPSVCINFO) : Lib Bool :=
  match service func svcinfo with
  | none => pure false
  | some r => tpreturn true r.rval r.rcode r.data (BitVec.ofNat 64 r.len) 0

/-- The fixed part of the `TPTRETN` for a result. -/
def resultHeader : Option Result → Bytes
  | none => fallMessage
  | some r => returnMessage r.rval r.rcode r.len

/-- The data of a result. -/
def resultBytes : Option Result → Bytes
  | none => []
  | some r => r.bytes

theorem length_resultHeader (r : Option Result) : (resultHeader r).length = 1 + IOLONG * 2 := by
  cases r <;> rfl

theorem returnLength_resultHeader (r : Option Result) :
    returnLength (resultHeader r) = (resultBytes r).length := by
  cases r with
  | none => decide
  | some r =>
      rw [resultHeader, returnLength_returnMessage r.short, resultBytes, r.length_bytes]

variable (service : Routines) {session : Session}

theorem callService_run (writable : session.writable = true) (func : BitVec 64) (info : TPSVCINFO) :
    callService (answering service) func info session =
      (match info.data with
        | none => .aborted
        | some _ => .returned { info with data := none },
      { session with
        output := session.output ++ (TPTRETN ::
          (resultHeader (service func info) ++ resultBytes (service func info))) }) := by
  cases result : service func info with
  | none =>
      simp only [callService, answering, result, bind_run, pure_run, Bool.not_false, ↓reduceIte,
        fellOut_run writable, resultHeader, resultBytes]
      cases info.data <;> rfl
  | some r =>
      simp only [callService, answering, result, bind_run,
        tpreturn_run writable r.rval r.rcode 0 r.short r.enough, Bool.not_true, Bool.false_eq_true,
        ↓reduceIte, resultHeader, resultBytes, Result.bytes]
      cases info.data <;> rfl

theorem tpservice_output (writable : session.writable = true) (svcinfo : TPSVCINFO) :
    ∃ rest, (tpservice (answering service) (some svcinfo) session).2.output =
      session.output ++ TPTWORK :: rest := by
  have fetches := fetchService_output writable svcinfo
  simp only [tpservice, bind_run]
  revert fetches
  rcases fetchService svcinfo session with ⟨⟨info, _ | func⟩, left⟩ <;> rintro ⟨output, writable'⟩
  · exact ⟨[], output⟩
  · simp only [bind_run, callService_run service writable', pure_run]
    exact ⟨_, by rw [output, List.append_assoc, List.singleton_append]⟩

theorem tpservice_answers (service : Routines) {v : Advert} {tr : Transaction}
    {svcname data more : Bytes} (svcinfo : TPSVCINFO) (writable : session.writable = true)
    (full : svcname.length = XATMI_SERVICE_NAME_LENGTH) (short : data.length < 2 ^ 31)
    (available : session.input = workFrame v tr svcname data ++ more) :
    ∃ info, Decodes info svcname tr data ∧
      tpservice (answering service) (some svcinfo) session =
        (some (.returned { info with data := none }), { session with
          input := more
          output := session.output ++ (TPTWORK :: TPTRETN ::
            (resultHeader (service (wire v.opaqueFunc) info) ++
              resultBytes (service (wire v.opaqueFunc) info)))
          tpurcode := 0 }) := by
  obtain ⟨info, decodes, fetched⟩ := fetchService_frame svcinfo writable full short available
  refine ⟨info, decodes, ?_⟩
  have returned := @callService_run service
    { session with input := more, output := session.output ++ [TPTWORK], tpurcode := 0 } writable
    (wire v.opaqueFunc) info
  rw [decodes.data] at returned
  simp only [tpservice, bind_run, fetched, returned, pure_run, List.append_assoc,
    List.singleton_append]

/-! ## One round -/

variable {service} {whole : Bytes} {σ τ : State} {w : ClientId} {events : List Event}
  {before after : Session} {svcinfo : TPSVCINFO} {result : Option Ending}

/-- In the run of `events` worker `w` returns `r`, which is then the result of transaction `t`. -/
def Yields (w : ClientId) (σ : State) (events : List Event) (t : TranId) (tr : Transaction)
    (r : Option Result) : Prop :=
  ∃ first e rest ρ ρ' b, events = first ++ e :: rest ∧ run σ first = .ok ρ ∧ step ρ e = .ok ρ' ∧
    Returns ρ e w ∧ (∃ tr', ρ.tran t = some tr') ∧
    Concludes ρ ρ' t (tr.returned (resultHeader r) b) (resultBytes r)

/-- Worker `w`, which is given transaction `t` in the step from `σ` to `τ`, executes it by the
routine at the address that it has advertised, and `events` see the result. -/
def Attends (service : Routines) (w : ClientId) (σ τ : State) (events : List Event) (a : AdvertId)
    (t : TranId) : Prop :=
  ∃ v tr svc data info, HandsOver σ τ a w t v tr svc data ∧ Decodes info svc.svcname tr data ∧
    Yields w τ events t tr (service (wire v.opaqueFunc) info)

/-- In each call of `tpservice` a worker in step is given a transaction, at once or after a rest,
and executes it; it is sent nothing else, and is in step afterwards. -/
theorem Called.executes
    (called : Called whole w σ events τ (tpservice (answering service) (some svcinfo)) before result
      after)
    (inStep : InStep whole w σ before) (reach : Reachable PicksNew σ)
    (meets : Meets PicksNew σ events) (ready : σ.AtCommand w) :
    ∃ first e tail ρ ρ' a t frame, events = first ++ e :: tail ∧ run σ first = .ok ρ ∧
      step ρ e = .ok ρ' ∧ run ρ' tail = .ok τ ∧ Given ρ ρ' a w t frame ∧
      Attends service w ρ ρ' tail a t ∧ ρ.sent w = σ.sent w ∧ τ.sent w = ρ'.sent w ∧
      τ.AtCommand w ∧ InStep whole w τ after := by
  have any : Reachable anyStep σ := reach.mono fun _ _ _ => trivial
  obtain ⟨said, output⟩ := tpservice_output service called.writable svcinfo
  obtain ⟨first, e, tail, ρ, ρ', a, t, frame, rfl, ran, done, execution, given, unsent, sends⟩ :=
    ready.given any called.execution called.ends (called.sends output)
  have reachρ : Reachable PicksNew ρ := reach.meets meets.take ran
  obtain ⟨permits, later⟩ : Meets PicksNew ρ (e :: tail) := meets.drop ran
  have reachρ' : Reachable PicksNew ρ' := .next reachρ permits done
  have anyρ' : Reachable anyStep ρ' := reachρ'.mono fun _ _ _ => trivial
  obtain ⟨v, tr, svc, data, handed⟩ := given.hands
  have sent : ρ'.sent w = σ.sent w ++ workFrame v tr svc.svcname data := by rw [handed.sent, unsent]
  obtain ⟨more, input, rest⟩ :=
    inStep.reads sent ((sent_of_run anyρ' execution w).trans called.carried)
  obtain ⟨info, decodes, answers⟩ := tpservice_answers service svcinfo called.writable
    ((sized_of_reachable reachρ).name _ svc handed.service)
    ((sized_of_reachable reachρ').data t tr data handed.found handed.room) input
  rw [answers] at output
  obtain rfl := (List.cons.inj (List.append_cancel_left output)).2
  obtain ⟨x, live, _, serves⟩ := handed.worker
  obtain ⟨first', e', rest', μ, μ', b, rfl, ran', done', execution', reachμ', returns, lives,
    concludes, ready', unsent', silent⟩ :=
    handed.reading.returns reachρ' (later ρ' done) execution ⟨⟨x, live, serves⟩, handed.found⟩
      (length_resultHeader _) (returnLength_resultHeader _) (sends.trans (by rw [List.append_nil]))
  have anyμ' : Reachable anyStep μ' := reachμ'.mono fun _ _ _ => trivial
  obtain ⟨_, last, free⟩ :=
    ready'.1.quiet (motive := fun ν => ν.Free w) anyμ' (by decide) execution'
      silent (called.connected any) ready'.2 fun ν e ν' got reach reading done cause free =>
        free_of_reading free (inv_of_reachable reach) reading done cause
  have last : τ.sent w = ρ'.sent w := last.trans unsent'
  obtain ⟨_, rfl⟩ := Prod.mk.inj (called.calls.symm.trans answers)
  refine ⟨first, e, _, ρ, ρ', a, t, frame, rfl, ran, done, execution, given, ?_, unsent, last,
    ⟨called.ends, free⟩, ?_⟩
  · exact ⟨v, tr, svc, data, info, handed, decodes, first', e', rest', μ, μ', b, rfl, ran', done',
      returns, lives, concludes⟩
  · rw [InStep, last, rest]

theorem Called.attends
    (called : Called whole w σ events τ (tpservice (answering service) (some svcinfo)) before result
      after)
    (inStep : InStep whole w σ before) (reach : Reachable PicksNew σ)
    (meets : Meets PicksNew σ events) (ready : σ.AtCommand w)
    {first tail : List Event} {e : Event} {μ μ' : State} {a : AdvertId} {t : TranId}
    (split : events = first ++ e :: tail) (ran : run σ first = .ok μ) (done : step μ e = .ok μ')
    (seen : .dispatched a w t ∈ μ'.log) (fresh : .dispatched a w t ∉ μ.log) :
    run μ' tail = .ok τ ∧ Attends service w μ μ' tail a t ∧ τ.sent w = μ'.sent w := by
  obtain ⟨first₀, e₀, tail₀, ρ, ρ', a₀, t₀, frame₀, split₀, ran₀, done₀, last₀, given₀, attends,
    unsent, sent, _⟩ := called.executes inStep reach meets ready
  have any : Reachable anyStep σ := reach.mono fun _ _ _ => trivial
  obtain ⟨frame, given⟩ := given_of_dispatched (inv_of_reachable (any.run ran)) done seen fresh
  obtain ⟨rfl, rfl, rfl, rfl, rfl⟩ := sent_once any (split₀.symm.trans split)
    (split₀ ▸ called.execution) ran₀ done₀ unsent sent ran done given.sent
    (List.length_pos_iff.mp given.frame_pos)
  obtain ⟨rfl, rfl⟩ := given₀.unique given
  exact ⟨last₀, attends, sent⟩

/-! ## Rounds -/

/-- Worker `w` calls `tpservice` any number of times, one call after the other. -/
inductive Works (service : Routines) (whole : Bytes) (w : ClientId) :
    State → Session → List Event → State → Session → Prop
  | none {σ : State} {session : Session} : Works service whole w σ session [] σ session
  | round {σ μ τ : State} {events more : List Event} {before between after : Session}
      {svcinfo : TPSVCINFO} {result : Option Ending} :
      Called whole w σ events μ (tpservice (answering service) (some svcinfo)) before result
        between →
      Works service whole w μ between more τ after →
      Works service whole w σ before (events ++ more) τ after

/-- Whatever transaction a worker that starts in step is given while it calls `tpservice` over and
over, it executes by its routine, and the result is complete before the worker is sent anything
else; and the worker stays in step. -/
theorem worker_attends (works : Works service whole w σ before events τ after)
    (inStep : InStep whole w σ before) (reach : Reachable PicksNew σ)
    (meets : Meets PicksNew σ events) (ready : σ.AtCommand w) :
    τ.AtCommand w ∧ InStep whole w τ after ∧ ∀ first e tail μ μ' a t, events = first ++ e :: tail →
      run σ first = .ok μ → step μ e = .ok μ' → .dispatched a w t ∈ μ'.log →
      .dispatched a w t ∉ μ.log →
      ∃ round rest ν, tail = round ++ rest ∧ run μ' round = .ok ν ∧ ν.AtCommand w ∧
        ν.sent w = μ'.sent w ∧ Attends service w μ μ' round a t := by
  induction works with
  | none => exact ⟨ready, inStep, fun first e tail _ _ _ _ split => by simp at split⟩
  | @round σ ν τ events more before between after svcinfo result called works ih =>
      obtain ⟨_, _, _, _, _, _, _, _, _, _, _, _, _, _, _, _, ready', inStep'⟩ :=
        called.executes inStep reach meets.take ready
      obtain ⟨last, inStep'', later⟩ := ih inStep' (reach.meets meets.take called.execution)
        (meets.drop called.execution) ready'
      refine ⟨last, inStep'', fun first e tail μ μ' a t split ran done seen fresh => ?_⟩
      rcases append_cons_cases split with ⟨round, rfl, rfl⟩ | ⟨first', rfl, split'⟩
      · obtain ⟨execution, attends, sent⟩ :=
          called.attends inStep reach meets.take ready rfl ran done seen fresh
        exact ⟨round, more, ν, rfl, execution, ready', sent, attends⟩
      · obtain ⟨_, ran', ran⟩ := run_append_ok_iff.mp ran
        obtain rfl := Except.ok.inj (called.execution.symm.trans ran')
        exact later first' e tail μ μ' a t split' ran done seen fresh

/-! ## Two rounds of one worker -/

open Scenario

/-- Routines that return two bytes, whatever they are called with. -/
def twoBytes : Routines :=
  fun _ _ => some ⟨TPSUCCESS, 5, some [7, 8], 2, by decide, by decide⟩

/-- What worker 0 is sent with a call of descriptor `cd`. -/
def sentCall (cd : BitVec 16) : Bytes :=
  workFrame givenAdvert { givenCall with cd := cd } (svcname 65) []

/-- What it writes in a round. -/
def roundOutput : Bytes :=
  TPTWORK :: TPTRETN :: (returnMessage TPSUCCESS 5 2 ++ [7, 8])

theorem tpservice_sentCall (cd : BitVec 16) (more output : Bytes) :
    ∃ result, tpservice (answering twoBytes) (some blankInfo)
      { input := sentCall cd ++ more, output } =
        (result, { input := more, output := output ++ roundOutput }) := by
  obtain ⟨info, _, answers⟩ := tpservice_answers twoBytes blankInfo
    (show Session.writable { input := sentCall cd ++ more, output } = true from rfl) (by decide)
    (by decide) rfl
  exact ⟨_, answers⟩

/-- Worker 0 asks for work and rests, client 2 calls `A`, and worker 0 returns. -/
def firstRound : List Event :=
  work 0 ++ call 2 65 0 9 ++ returning

/-- The call that ends the rest of worker 0. -/
def calledNine : Event :=
  receive 2 (svcname 65 ++ longBytes 0 ++ longBytes 0) 9

/-- Worker 0 is given transaction `t` for the first time. -/
def showsDispatch (μ μ' : State) (t : TranId) : Bool :=
  decide (t ∉ μ.handedOut ∧ .dispatched 6 0 t ∈ μ'.log)

theorem dispatched_of_shows {μ μ' : State} {t : TranId} (shown : showsDispatch μ μ' t = true) :
    .dispatched 6 0 t ∉ μ.log ∧ .dispatched 6 0 t ∈ μ'.log := by
  obtain ⟨fresh, given⟩ := of_decide_eq_true shown
  exact ⟨fun before => fresh (State.mem_handedOut_iff.mpr ⟨6, 0, before⟩), given⟩

/-- The first round of worker 0, and the transaction in it. -/
def showsFirstRound (σ : State) : Bool :=
  decide ((σ.client 0).map (·.wait4) = some none ∧ σ.sent 0 = shortBytes 0) &&
    ((run σ firstRound).toOption.any (fun (ν : State) =>
      showsCalled 0 σ firstRound ν roundOutput (shortBytes 0 ++ sentCall 9)) &&
    (run σ (work 0 ++ [receive 2 [TPTCALL] 0])).toOption.any (fun (μ : State) =>
      (step μ calledNine).toOption.any fun (μ' : State) => showsDispatch μ μ' 11))

theorem called_firstRound (more : Bytes) (shown : showsFirstRound σ = true) :
    σ.AtCommand 0 ∧
      InStep (shortBytes 0 ++ (sentCall 9 ++ more)) 0 σ { input := sentCall 9 ++ more } ∧
      (∃ ν result, Called (shortBytes 0 ++ (sentCall 9 ++ more)) 0 σ firstRound ν
        (tpservice (answering twoBytes) (some blankInfo)) { input := sentCall 9 ++ more } result
        { input := more, output := roundOutput }) ∧
      ∃ μ μ', run σ (work 0 ++ [receive 2 [TPTCALL] 0]) = .ok μ ∧ step μ calledNine = .ok μ' ∧
        .dispatched 6 0 11 ∉ μ.log ∧ .dispatched 6 0 11 ∈ μ'.log := by
  obtain ⟨now, shown⟩ := Bool.and_eq_true_iff.mp shown
  obtain ⟨free, sent⟩ := of_decide_eq_true now
  obtain ⟨served, shown⟩ := Bool.and_eq_true_iff.mp shown
  obtain ⟨ν, execution, served⟩ := ok_of_any served
  obtain ⟨μ, ran, shown⟩ := ok_of_any shown
  obtain ⟨μ', done, shown⟩ := ok_of_any shown
  obtain ⟨x, live, free⟩ := Option.map_eq_some_iff.mp free
  obtain ⟨result, calls⟩ := tpservice_sentCall 9 more []
  have carried : shortBytes 0 ++ sentCall 9 <+: shortBytes 0 ++ (sentCall 9 ++ more) := by
    rw [← List.append_assoc]
    exact List.prefix_append _ _
  have called := Called.of_shows execution served rfl calls rfl carried
  exact ⟨⟨called.starts, x, live, free⟩, by rw [InStep, sent], ⟨ν, result, called⟩, μ, μ',
    ran, done, dispatched_of_shows shown⟩

/-- Client 2 calls `A` once more, and worker 0 asks for work and returns. -/
def secondRound : List Event :=
  call 2 65 0 12 ++ work 0 ++ returning

/-- Both rounds. -/
def showsRounds (σ : State) : Bool :=
  permitted PicksNew σ (firstRound ++ secondRound) && (showsFirstRound σ &&
    (run σ firstRound).toOption.any fun (ν : State) =>
      (run ν secondRound).toOption.any (fun (τ : State) =>
        showsCalled 0 ν secondRound τ roundOutput (shortBytes 0 ++ (sentCall 9 ++ sentCall 12))) &&
      (run ν (call 2 65 0 12)).toOption.any fun (κ : State) =>
        (step κ asksForWork).toOption.any fun (κ' : State) => showsDispatch κ κ' 19)

/-- Worker 0 is given transaction 11 while it rests, and transaction 19 when it asks for work again;
it returns two bytes for each. -/
theorem worker_attends_twice : ∃ (σ τ μ μ' κ κ' : State) (after : Session), Reachable PicksNew σ ∧
    InStep (shortBytes 0 ++ (sentCall 9 ++ sentCall 12)) 0 σ
      { input := sentCall 9 ++ sentCall 12 } ∧
    Works twoBytes (shortBytes 0 ++ (sentCall 9 ++ sentCall 12)) 0 σ
      { input := sentCall 9 ++ sentCall 12 } (firstRound ++ secondRound) τ after ∧
    step μ calledNine = .ok μ' ∧ .dispatched 6 0 11 ∈ μ'.log ∧
    (∃ round rest, returning ++ secondRound = round ++ rest ∧ Attends twoBytes 0 μ μ' round 6 11) ∧
    step κ asksForWork = .ok κ' ∧ .dispatched 6 0 19 ∈ κ'.log ∧
    (∃ round rest, returning = round ++ rest ∧ Attends twoBytes 0 κ κ' round 6 19) ∧
    InStep (shortBytes 0 ++ (sentCall 9 ++ sentCall 12)) 0 τ after := by
  obtain ⟨σ, reach, seen⟩ :=
    reachable_of_permitted ([connect, connect] ++ advertising 7) showsRounds
      true (show permitted PicksNew _ _ = true by decide +kernel) (by decide +kernel)
  obtain ⟨new, seen⟩ := Bool.and_eq_true_iff.mp seen
  obtain ⟨round, seen⟩ := Bool.and_eq_true_iff.mp seen
  obtain ⟨ν, execution, seen⟩ := ok_of_any seen
  obtain ⟨served, seen⟩ := Bool.and_eq_true_iff.mp seen
  obtain ⟨τ, execution', served⟩ := ok_of_any served
  obtain ⟨κ, ran', seen⟩ := ok_of_any seen
  obtain ⟨κ', done', seen⟩ := ok_of_any seen
  obtain ⟨fresh', given'⟩ := dispatched_of_shows seen
  obtain ⟨ready, inStep, ⟨ν', _, called⟩, μ, μ', ran, done, fresh, given⟩ :=
    called_firstRound (sentCall 12) round
  obtain rfl := Except.ok.inj (execution.symm.trans called.execution)
  have meets : Meets PicksNew σ (firstRound ++ secondRound) := .of_permitted new
  obtain ⟨_, calls⟩ := tpservice_sentCall 12 [] roundOutput
  have called' : Called (shortBytes 0 ++ (sentCall 9 ++ sentCall 12)) 0 ν secondRound τ
      (tpservice (answering twoBytes) (some blankInfo))
      { input := sentCall 12, output := roundOutput } _ _ :=
    .of_shows execution' served rfl calls rfl List.prefix_rfl
  have works := Works.round called (Works.round called' .none)
  rw [List.append_nil] at works
  obtain ⟨_, inStep', attends⟩ := worker_attends works inStep reach meets ready
  obtain ⟨round₁, rest₁, _, split₁, _, _, _, attends₁⟩ :=
    attends _ calledNine (returning ++ secondRound) μ μ' 6 11 rfl ran done given fresh
  obtain ⟨round₂, rest₂, _, split₂, _, _, _, attends₂⟩ :=
    attends (firstRound ++ call 2 65 0 12) asksForWork returning κ κ' 6 19 rfl
      (run_append_ok_iff.mpr ⟨ν, execution, ran'⟩) done' given' fresh'
  exact ⟨σ, τ, μ, μ', κ, κ', _, reach, inStep, works, done, given,
    ⟨round₁, rest₁, split₁, attends₁⟩, done', given', ⟨round₂, rest₂, split₂, attends₂⟩, inStep'⟩

end Library
end Xatmi
