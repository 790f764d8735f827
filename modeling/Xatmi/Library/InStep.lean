import Xatmi.Library.Calls
import Xatmi.Switchboard.Frames
import Xatmi.Switchboard.Handover

/-!
# Processes in step with the switchboard

A library call reads its answer where the call before it has stopped to read. If that is where the
answers to the earlier calls end, the process is in step, and the call gets the answer that was
meant for it; if bytes of an earlier answer are left, it takes those for its answer.
-/

namespace Xatmi
namespace Library

open Switchboard

variable {α : Type} {whole : Bytes} {c : ClientId} {σ τ : State} {events : List Event}
  {call : Lib α} {result : α} {before after : Session}

/-- Client `c` makes a library call and the switchboard serves it, from one command to the next:
what the call writes is what is taken from the connection. All that is ever sent on the connection
is `whole`. -/
structure Called (whole : Bytes) (c : ClientId) (σ : State) (events : List Event) (τ : State)
    (call : Lib α) (before : Session) (result : α) (after : Session) : Prop where
  starts : σ.Reading c .command 1 []
  execution : run σ events = .ok τ
  ends : τ.Reading c .command 1 []
  writable : before.writable = true
  calls : call before = (result, after)
  written : after.output = before.output ++ stream c σ events
  carried : τ.sent c <+: whole

/-- What the process of client `c` reads next is what the switchboard sends it next. -/
def InStep (whole : Bytes) (c : ClientId) (σ : State) (session : Session) : Prop :=
  whole = σ.sent c ++ session.input

instance (whole : Bytes) (c : ClientId) (σ : State) (session : Session) :
    Decidable (InStep whole c σ session) :=
  inferInstanceAs (Decidable (whole = σ.sent c ++ session.input))

/-- What is sent to a process in step is at the front of what it has not read. -/
theorem InStep.front {frame : Bytes} (inStep : InStep whole c σ before)
    (carried : σ.sent c ++ frame <+: whole) :
    ∃ more, before.input = frame ++ more ∧ whole = σ.sent c ++ frame ++ more := by
  obtain ⟨more, rfl⟩ := carried
  rw [InStep, List.append_assoc] at inStep
  exact ⟨more, (List.append_cancel_left inStep).symm, rfl⟩

theorem InStep.reads {frame : Bytes} (inStep : InStep whole c σ before)
    (sent : τ.sent c = σ.sent c ++ frame) (carried : τ.sent c <+: whole) :
    ∃ more, before.input = frame ++ more ∧ whole = τ.sent c ++ more := by
  rw [sent] at carried ⊢
  exact inStep.front carried

namespace Called

theorem connected (called : Called whole c σ events τ call before result after)
    (reach : Reachable anyStep σ) : c ∈ τ.clients :=
  called.ends.connected (inv_of_reachable (reach.run called.execution))

/-- The bytes that a call writes are taken from the connection. -/
theorem sends {bytes : Bytes} (called : Called whole c σ events τ call before result after)
    (output : (call before).2.output = before.output ++ bytes) : stream c σ events = bytes := by
  rw [called.calls, called.written] at output
  exact List.append_cancel_left output

end Called

/-- What a run shows of a call that writes `bytes`: `sent` has been sent to client `c` when it
ends. -/
def showsCalled (c : ClientId) (σ : State) (events : List Event) (τ : State) (bytes sent : Bytes) :
    Bool :=
  decide (σ.Reading c .command 1 [] ∧ τ.Reading c .command 1 [] ∧ stream c σ events = bytes ∧
    τ.sent c = sent)

theorem Called.of_shows {bytes sent : Bytes} (execution : run σ events = .ok τ)
    (shown : showsCalled c σ events τ bytes sent = true) (writable : before.writable = true)
    (calls : call before = (result, after)) (output : after.output = before.output ++ bytes)
    (carried : sent <+: whole) : Called whole c σ events τ call before result after := by
  obtain ⟨starts, ends, written, rfl⟩ := of_decide_eq_true shown
  exact ⟨starts, execution, ends, writable, calls, output.trans (by rw [written]), carried⟩

/-! ## Answers that are one code -/

section Code

/-- A command that a call writes, and nothing after it, is read while nothing is sent to the client
and what the client offers stays. -/
theorem Called.handled {kind : Byte} {handler : Handler} {body : Bytes}
    (called : Called whole c σ events τ call before result after) (reach : Reachable anyStep σ)
    (output : (call before).2.output = before.output ++ kind :: body)
    (known : commands[kind.toNat]? = some (handler, body.length)) (nonempty : body ≠ [])
    (name : Bytes) :
    ∃ first e tail μ μ', events = first ++ e :: tail ∧ run σ first = .ok μ ∧ step μ e = .ok μ' ∧
      run μ' tail = .ok τ ∧ Received μ e c handler body ∧ stream c μ' tail = [] ∧
      μ.sent c = σ.sent c ∧ μ.offers c name = σ.offers c name := by
  have sends : stream c σ events = kind :: (body ++ []) := by
    rw [List.append_nil]
    exact called.sends output
  exact called.starts.message (motive := fun μ => μ.offers c name = σ.offers c name)
    reach (meets_anyStep σ events) called.execution known nonempty sends rfl
    (fun μ e μ' reach _ _ _ done cause =>
      (offers_of_reading (inv_of_reachable reach) done _ cause).trans)
    (fun μ e μ' filled reach _ received _ done stays =>
      (offers_of_command (inv_of_reachable reach) received done stays _).trans)

/-- After its answer the client is sent nothing, and what it offers stays. -/
theorem Called.rests {tail : List Event} {μ : State}
    (called : Called whole c σ events τ call before result after) (reach : Reachable anyStep σ)
    (reachμ : Reachable anyStep μ) (reading : μ.Reading c .command 1 [])
    (execution : run μ tail = .ok τ) (silent : stream c μ tail = []) (name : Bytes) :
    τ.sent c = μ.sent c ∧ τ.offers c name = μ.offers c name := by
  obtain ⟨_, unsent, stays⟩ := reading.quiet
    (motive := fun ν => ν.offers c name = μ.offers c name) reachμ (by decide) execution silent
    (called.connected reach) rfl
    (fun ν e ν' _ reach _ done cause =>
      (offers_of_reading (inv_of_reachable reach) done _ cause).trans)
  exact ⟨unsent, stays⟩

variable {result : BitVec 32} {call : Lib (BitVec 32)} {asking : Session}

/-- A call that waits for a code returns what the code says. -/
theorem Called.returns_code {accepted : Prop} [Decidable accepted] {errno : Nat}
    (called : Called whole c σ events τ call before result after)
    (inStep : InStep whole c σ before) (waits : call before = readCode asking)
    (input : asking.input = before.input) (nonzero : BitVec.ofNat 16 errno ≠ 0)
    (sent : τ.sent c = σ.sent c ++ shortBytes (if accepted then 0 else BitVec.ofNat 16 errno)) :
    (result, after.tperrno) = (if accepted then (0, asking.tperrno)
        else (-1, (BitVec.ofNat 16 errno).setWidth 32)) ∧
      InStep whole c τ after := by
  obtain ⟨more, available, rest⟩ := inStep.reads sent called.carried
  have calls := called.calls
  rw [waits, readCode_run (input.trans available)] at calls
  obtain ⟨rfl, rfl⟩ := Prod.mk.inj calls
  refine ⟨?_, rest⟩
  by_cases granted : accepted
  · rw [if_pos granted, if_pos granted, if_pos rfl, if_pos rfl]
  · rw [if_neg granted, if_neg granted, if_neg nonzero, if_neg nonzero]

/-- `tpadvertise` stores the address unless there is one, and says whether it is the one stored. -/
theorem Called.tpadvertise {name : Bytes} {func : BitVec 64}
    (called : Called whole c σ events τ (tpadvertise (some name) func) before result after)
    (inStep : InStep whole c σ before) (reach : Reachable anyStep σ)
    (full : name.length = XATMI_SERVICE_NAME_LENGTH) (nonnull : func ≠ 0) :
    τ.offers c (cname name) = some ((σ.offers c (cname name)).getD (wire func)) ∧
      (result, after.tperrno) =
        (if (σ.offers c (cname name)).getD (wire func) = wire func then (0, before.tperrno)
        else (-1, BitVec.ofNat 32 TPEMATCH)) ∧
      InStep whole c τ after := by
  have waits := tpadvertise_run nonnull called.writable name
  have taken : name.take XATMI_SERVICE_NAME_LENGTH = name :=
    List.take_of_length_le (Nat.le_of_eq full)
  have output : (Library.tpadvertise (some name) func before).2.output =
      before.output ++ TPTADVT :: (name ++ longBytes func) := by
    rw [waits, readCode_output, Session.advertising, taken]
    simp
  have body : (name ++ longBytes func).length = XATMI_SERVICE_NAME_LENGTH + IOLONG := by
    rw [List.length_append, full, length_longBytes]
  have known : commands[TPTADVT.toNat]? =
      some (.svradvertise, (name ++ longBytes func).length) := by
    rw [body]
    rfl
  have nonempty : name ++ longBytes func ≠ [] := by
    intro empty
    rw [empty] at body
    cases body
  obtain ⟨first, e, tail, μ, μ', rfl, ran, done, execution', received, silent, unsent, same⟩ :=
    called.handled reach output known nonempty (cname name)
  have reachμ : Reachable anyStep μ := reach.run ran
  obtain ⟨stored, answered⟩ := svradvertise_refines (inv_of_reachable reachμ) received done
  have named : (name ++ longBytes func).take XATMI_SERVICE_NAME_LENGTH = name := by
    rw [← full, List.take_left]
  have pointer : (name ++ longBytes func).drop XATMI_SERVICE_NAME_LENGTH = longBytes func := by
    rw [← full, List.drop_left]
  rw [named, pointer, tolong_longBytes] at stored answered
  set kept := (σ.offers c (cname name)).getD (wire func) with kept_eq
  have here : μ'.offers c (cname name) = some kept := by
    rw [stored, Offers.advertise, if_pos ⟨rfl, rfl⟩, same]
  simp only [here, Option.some.injEq] at answered
  obtain ⟨unsent', stays⟩ := called.rests reach (.next reachμ trivial done)
    (reading_of_advertise received done) execution' silent (cname name)
  have sent : τ.sent c =
      σ.sent c ++ shortBytes (if kept = wire func then 0 else BitVec.ofNat 16 TPEMATCH) := by
    rw [unsent', answered, ← unsent]
    exact if_pos rfl
  obtain ⟨returned, inStep'⟩ := called.returns_code inStep waits rfl (by decide) sent
  exact ⟨stays.trans here, returned, inStep'⟩

/-- `tpunadvertise` removes what is stored under the name, and says whether there was anything. -/
theorem Called.tpunadvertise {name : Bytes}
    (called : Called whole c σ events τ (tpunadvertise (some name)) before result after)
    (inStep : InStep whole c σ before) (reach : Reachable anyStep σ)
    (full : name.length = XATMI_SERVICE_NAME_LENGTH) :
    τ.offers c (cname name) = none ∧
      (result, after.tperrno) =
        (if (σ.offers c (cname name)).isSome then (0, before.tperrno)
        else (-1, BitVec.ofNat 32 TPENOENT)) ∧
      InStep whole c τ after := by
  have waits := tpunadvertise_run called.writable name
  have taken : name.take XATMI_SERVICE_NAME_LENGTH = name :=
    List.take_of_length_le (Nat.le_of_eq full)
  have output : (Library.tpunadvertise (some name) before).2.output =
      before.output ++ TPTUADV :: name := by
    rw [waits, readCode_output, Session.withdrawing, taken]
    simp
  have known : commands[TPTUADV.toNat]? = some (.svrunadvertise, name.length) := by
    rw [full]
    rfl
  have nonempty : name ≠ [] := by
    rintro rfl
    cases full
  obtain ⟨first, e, tail, μ, μ', rfl, ran, done, execution', received, silent, unsent, same⟩ :=
    called.handled reach output known nonempty (cname name)
  have reachμ : Reachable anyStep μ := reach.run ran
  obtain ⟨stored, answered⟩ := svrunadvertise_refines (inv_of_reachable reachμ) received done
  rw [taken] at stored answered
  have here : μ'.offers c (cname name) = none := by
    rw [stored, Offers.withdraw, if_pos ⟨rfl, rfl⟩]
  obtain ⟨unsent', stays⟩ := called.rests reach (.next reachμ trivial done)
    (reading_of_unadvertise received done) execution' silent (cname name)
  have sent : τ.sent c = σ.sent c ++
      shortBytes (if (σ.offers c (cname name)).isSome then 0 else BitVec.ofNat 16 TPENOENT) := by
    rw [unsent', answered, ← unsent, same]
    exact if_pos rfl
  obtain ⟨returned, inStep'⟩ := called.returns_code inStep waits rfl (by decide) sent
  exact ⟨stays.trans here, returned, inStep'⟩

end Code

/-! ## Transactions -/

/-- `info` is what `tpservice` makes of transaction `tr` for a service. -/
structure Decodes (info : TPSVCINFO) (svcname : Bytes) (tr : Transaction) (data : Bytes) :
    Prop where
  name : info.name = svcname
  len : info.len = BitVec.ofNat 64 data.length
  flags : info.flags = wire tr.flags
  cd : info.cd = tr.cd.setWidth 32
  data : info.data = some data

/-- The frame of a transaction tells all that `tpservice` makes of it. -/
theorem Decodes.of_frame {info : TPSVCINFO} {svcname svcname' data data' : Bytes} {v : Advert}
    {tr tr' : Transaction} (decodes : Decodes info svcname' tr' data')
    (full : svcname.length = XATMI_SERVICE_NAME_LENGTH)
    (full' : svcname'.length = XATMI_SERVICE_NAME_LENGTH)
    (same : workFrame v tr svcname data = workFrame v tr' svcname' data') :
    Decodes info svcname tr data := by
  simp only [workFrame, List.append_assoc] at same
  obtain ⟨name, rest⟩ := List.append_inj (List.append_cancel_left same) (full.trans full'.symm)
  obtain ⟨_, rest⟩ := List.append_inj rest (by simp)
  obtain ⟨flags, rest⟩ := List.append_inj rest (by simp)
  obtain ⟨cd, contents⟩ := List.append_inj rest (by simp)
  subst name contents
  refine ⟨decodes.name, decodes.len, ?_, ?_, decodes.data⟩
  · rw [decodes.flags, ← tolong_longBytes, ← tolong_longBytes, flags]
  · rw [decodes.cd, ← toshort_shortBytes tr.cd, ← toshort_shortBytes tr'.cd, cd]

section Fetch

variable {svcinfo : TPSVCINFO} {session : Session}

theorem fetchService_frame {v : Advert} {tr : Transaction} {svcname data more : Bytes}
    (svcinfo : TPSVCINFO) (writable : session.writable = true)
    (full : svcname.length = XATMI_SERVICE_NAME_LENGTH) (short : data.length < 2 ^ 31)
    (available : session.input = workFrame v tr svcname data ++ more) :
    ∃ info, Decodes info svcname tr data ∧
      fetchService svcinfo session = ((info, some (wire v.opaqueFunc)),
        { session with input := more, output := session.output ++ [TPTWORK], tpurcode := 0 }) := by
  have frame : session.input = longBytes v.opaqueFunc ++
      (workHeader svcname (BitVec.ofNat 64 data.length) tr.flags tr.cd ++ (data ++ more)) := by
    rw [available]
    simp [workFrame, workHeader]
  obtain ⟨info, fetched, name, len, flags, cd, contents⟩ :=
    fetchService_run svcinfo writable full short frame
  exact ⟨info, ⟨name, len, flags, cd, contents⟩, fetched⟩

/-- Up to the call of the routine, `tpservice` writes its command. -/
theorem fetchService_output (writable : session.writable = true) (svcinfo : TPSVCINFO) :
    (fetchService svcinfo session).2.output = session.output ++ [TPTWORK] ∧
      (fetchService svcinfo session).2.writable = true := by
  simp only [fetchService, bind_run, txWriteb, txWrite_run writable]
  split
  · exact ⟨rfl, writable⟩
  · simp only [bind_run]
    split
    · exact ⟨rfl, writable⟩
    · simp only [bind_run, tpalloc]
      split <;> split <;> exact ⟨rfl, writable⟩

/-- `tpservice` calls the routine at the address that it has been sent. -/
theorem tpservice_of_fetch {info : TPSVCINFO} {func : BitVec 64}
    (fetched : fetchService svcinfo before = ((info, some func), after))
    (routine : BitVec 64 → TPSVCINFO → Lib Bool) :
    tpservice routine (some svcinfo) before = (some <$> callService routine func info) after := by
  simp only [tpservice, bind_run, fetched]
  rfl

/-- The transaction that a process in step is given while it is in `tpservice` is the one that
`tpservice` reads. -/
theorem Called.fetches {head tail : List Event} {e : Event} {μ μ' : State} {a : AdvertId}
    {t : TranId} {frame : Bytes} {fetched : TPSVCINFO × Option (BitVec 64)}
    (called : Called whole c σ (head ++ e :: tail) τ (fetchService svcinfo) before fetched after)
    (inStep : InStep whole c σ before) (reach : Reachable anyStep σ) (ran : run σ head = .ok μ)
    (done : step μ e = .ok μ') (given : Given μ μ' a c t frame) :
    ∃ v tr svc data info, HandsOver μ μ' a c t v tr svc data ∧ Decodes info svc.svcname tr data ∧
      fetched = (info, some (wire v.opaqueFunc)) ∧ InStep whole c τ after := by
  have reachμ : Reachable anyStep μ := reach.run ran
  have reachμ' : Reachable anyStep μ' := .next reachμ trivial done
  have sends := called.sends (fetchService_output called.writable svcinfo).1
  obtain ⟨unsent, last⟩ :=
    called.starts.fetches reach called.execution called.ends sends ran done given
  obtain ⟨v, tr, svc, data, handed⟩ := given.hands
  have sent : τ.sent c = σ.sent c ++ workFrame v tr svc.svcname data := by
    rw [last, handed.sent, unsent]
  obtain ⟨more, available, rest⟩ := inStep.reads sent called.carried
  obtain ⟨info, decodes, reads⟩ := fetchService_frame svcinfo called.writable
    ((sized_of_reachable reachμ).name _ svc handed.service)
    ((sized_of_reachable reachμ').data t tr data handed.found handed.room) available
  obtain ⟨rfl, rfl⟩ := Prod.mk.inj (called.calls.symm.trans reads)
  exact ⟨v, tr, svc, data, info, handed, decodes, rfl, rest⟩

end Fetch

end Library
end Xatmi
