import Xatmi.Library.Exchanges
import Xatmi.Library.Pointers

/-!
# From `tpacall` to `tpservice`

A request passes through the library of the client, the switchboard, which stores it until a worker
is there, and the library of the worker.  What the service routine finds in its `TPSVCINFO` is what
`tpacall` was given, if both processes are in step.
-/

namespace Xatmi
namespace Library

open Switchboard

variable {whole : Bytes} {σ τ : State} {c : ClientId} {events : List Event} {before after : Session}
  {svc : Bytes} {data : Option Bytes} {n : Nat} {len flags : BitVec 64} {result : BitVec 32}

/-! ## Delivery -/

/-- A request that `tpacall` has returned a descriptor for is delivered as it was made: whenever and
to whomever it is dispatched first, if that is in a call of `tpservice`, the `TPSVCINFO` of the
service routine that `tpservice` calls has its length, flags, descriptor, name and data; provided
that both processes are in step when they make these calls. -/
theorem requests_delivered {start : State} {earlier : List Event} (reach : Reachable anyStep start)
    (begun : run start earlier = .ok σ) (full : XATMI_SERVICE_NAME_LENGTH ≤ svc.length)
    (fits : -2 ^ 31 ≤ flags.toInt ∧ flags.toInt < 2 ^ 31) (short : n < 2 ^ 31)
    (enough : n ≤ (data.getD []).length)
    (called : Called whole c σ events τ (tpacall (some svc) data (BitVec.ofNat 64 n) flags) before
      result after)
    (inStep : InStep whole c σ before) (accepted : result ≠ -1) :
    ∃ first e tail ρ ρ' t tr, events = first ++ e :: tail ∧ run σ first = .ok ρ ∧
      step ρ e = .ok ρ' ∧
      Received ρ e c .svracall
        (callMessage (svc.take XATMI_SERVICE_NAME_LENGTH) (BitVec.ofNat 64 n) flags) ∧
      ρ.tran t = none ∧ ρ'.tran t = some tr ∧ tr.client = c ∧
      ∀ later pre head e' rest post κ κ' μ μ' a w whole' svcinfo session fetched left,
        earlier ++ (events ++ later) = pre ++ ((head ++ e' :: rest) ++ post) →
        run start pre = .ok κ → run κ head = .ok μ → step μ e' = .ok μ' → ¬μ.Dispatched t →
        .dispatched a w t ∈ μ'.log →
        Called whole' w κ (head ++ e' :: rest) κ' (fetchService svcinfo) session fetched left →
        InStep whole' w κ session →
        ∃ (info : TPSVCINFO) (func : BitVec 64), fetched = (info, some func) ∧
          (∀ routine, tpservice routine (some svcinfo) session =
            (some <$> callService routine func info) left) ∧
          info.len = BitVec.ofNat 64 n ∧ info.flags = flags ∧ info.cd = result ∧
          cname info.name = cname (svc.take XATMI_SERVICE_NAME_LENGTH) ∧
          info.data = some ((data.getD []).take n) := by
  have reachσ : Reachable anyStep σ := reach.run begun
  obtain ⟨_, first, e, tail, ρ, ρ', split, ran, done, received, makes⟩ :=
    called.tpacall inStep reachσ full short enough
  obtain ⟨s, t, tr, before', e₁, after', ν, ν', made, cd, new, ⟨tr', current, place⟩, split₁, ran₁,
    done₁, uploaded⟩ := makes accepted
  have owner : tr'.client = c := by
    rw [client_of_place place, made]
    rfl
  refine ⟨first, e, tail, ρ, ρ', t, tr', split, ran, done, received,
    (inv_of_reachable (reachσ.run ran)).waits.fresh_tran new, current, owner, ?_⟩
  intro later pre head e' rest post κ κ' μ μ' a w whole' svcinfo session fetched left same ranκ ranμ
    done' fresh' seen worked inStep'
  have reachκ : Reachable anyStep κ := reach.run ranκ
  have reachμ : Reachable anyStep μ := reachκ.run ranμ
  have places : (earlier ++ before') ++ e₁ :: (after' ++ later) =
      (pre ++ head) ++ e' :: (rest ++ post) := by
    rw [split₁] at same
    simpa using same
  obtain ⟨⟨v, svc', advert, owner', service, sent⟩, between, toμ⟩ :=
    uploaded.settles.delivered reach
      (run_append_ok_iff.mpr ⟨σ, begun, ran₁⟩) done₁ uploaded.new places
      (run_append_ok_iff.mpr ⟨κ, ranκ, ranμ⟩) done' fresh' seen
  obtain ⟨_, given⟩ := given_of_dispatched (inv_of_reachable reachμ) done' seen
    fun before => fresh' ⟨a, w, before⟩
  obtain ⟨v', tr'', svc'', data', info, handed, decodes, rfl, _⟩ :=
    worked.fetches inStep' reachκ ranμ done' given
  obtain rfl := Option.some.inj (advert.symm.trans handed.advert)
  have sized := sized_of_reachable reachμ
  have decodes' := decodes.of_frame (sized.name _ svc' service) (sized.name _ svc'' handed.service)
    (List.append_cancel_left (sent.symm.trans handed.sent))
  refine ⟨info, _, rfl, tpservice_of_fetch worked.calls, ?_, ?_, decodes'.cd.trans cd.symm, ?_,
    decodes'.data⟩
  · rw [decodes'.len, List.length_take_of_le enough]
  · have survives : wire flags = flags := (wire_eq_self_iff flags).mpr fits
    rw [decodes'.flags, made]
    exact (congrArg wire survives).trans survives
  · rw [decodes'.name]
    exact uploaded.name between μ svc' toμ service

/-! ## One call -/

open Scenario

/-- Client 2 calls `A` with two bytes of data. -/
def submitting : List Event :=
  [receive 2 [TPTCALL] 0, receive 2 (callMessage (svcname 65) 2 5) 9, receive 2 [7, 8] 0]

/-- What `tpacall` finds and leaves. -/
def calling : Session :=
  { input := 0 :: shortBytes 9 }

def called : Session :=
  { input := [], output := TPTCALL :: (callMessage (svcname 65) 2 5 ++ [7, 8]) }

/-- What client 0 is sent with the transaction. -/
def submittedWork : Bytes :=
  workFrame givenAdvert { givenCall with flags := 5 } (svcname 65) [7, 8]

/-- The call is served. -/
def showsSubmission (σ τ : State) : Bool :=
  decide (σ.sent 2 = []) && showsCalled 2 σ submitting τ called.output calling.input

theorem called_of_submission (execution : run σ submitting = .ok τ)
    (shown : showsSubmission σ τ = true) :
    InStep calling.input 2 σ calling ∧
      Called calling.input 2 σ submitting τ
        (tpacall (some (svcname 65)) (some [7, 8]) (BitVec.ofNat 64 2) 5) calling 9 called := by
  obtain ⟨opened, shown⟩ := Bool.and_eq_true_iff.mp shown
  have opened : σ.sent 2 = [] := of_decide_eq_true opened
  refine ⟨by rw [InStep, opened]; rfl, .of_shows execution shown rfl rfl rfl List.prefix_rfl⟩

/-- The call makes transaction 10, which client 0 is given when it asks for work. -/
def showsDelivery (σ : State) : Bool :=
  decide (received σ (receive 2 [TPTCALL] 0) = some (2, .command, [TPTCALL])) &&
    (run σ (submitting.take 2)).toOption.any fun (ρ : State) =>
      decide (received ρ (receive 2 [7, 8] 0) = some (2, .sendToWorker, [7, 8]) ∧
        ρ.transactions = [10]) &&
        (run σ submitting).toOption.any fun (τ : State) => showsSubmission σ τ &&
          (decide (τ.handedOut = []) && (step τ asksForWork).toOption.any fun (μ : State) =>
            showsFetch τ μ submittedWork && decide (.dispatched 6 0 10 ∈ μ.log))

/-- The request is queued, and client 0 fetches it. -/
theorem requests_delivered_queued : ∃ (σ τ μ : State) (info : TPSVCINFO) (left : Session),
    Reachable anyStep σ ∧
    Called calling.input 2 σ submitting τ (tpacall (some (svcname 65)) (some [7, 8]) 2 5) calling 9
      called ∧
    InStep calling.input 2 σ calling ∧ .dispatched 6 0 10 ∈ μ.log ∧
    Called (μ.sent 0) 0 τ [asksForWork] μ (fetchService blankInfo) { input := submittedWork }
      (info, some 7) left ∧
    InStep (μ.sent 0) 0 τ { input := submittedWork } ∧
    ∃ (info' : TPSVCINFO) (func : BitVec 64), (info, some (7 : BitVec 64)) = (info', some func) ∧
      (∀ routine, tpservice routine (some blankInfo) { input := submittedWork } =
        (some <$> callService routine func info') left) ∧
      info'.len = 2 ∧ info'.flags = 5 ∧ info'.cd = 9 ∧ cname info'.name = [65] ∧
      info'.data = some [7, 8] := by
  obtain ⟨σ, _, reach, seen⟩ := reachable_of_outcome ([connect, connect] ++ advertising 7)
    showsDelivery true (by decide +kernel)
  obtain ⟨typed, seen⟩ := Bool.and_eq_true_iff.mp seen
  have typed : received σ (receive 2 [TPTCALL] 0) = some (2, .command, [TPTCALL]) :=
    of_decide_eq_true typed
  obtain ⟨ρ₂, ran₂, seen⟩ := ok_of_any seen
  obtain ⟨now, seen⟩ := Bool.and_eq_true_iff.mp seen
  obtain ⟨uploads, one⟩ := of_decide_eq_true now
  obtain ⟨τ, execution, seen⟩ := ok_of_any seen
  obtain ⟨shown, seen⟩ := Bool.and_eq_true_iff.mp seen
  obtain ⟨undispatched, seen⟩ := Bool.and_eq_true_iff.mp seen
  have undispatched : τ.handedOut = [] := of_decide_eq_true undispatched
  obtain ⟨μ, works, seen⟩ := ok_of_any seen
  obtain ⟨frame, given⟩ := Bool.and_eq_true_iff.mp seen
  have given : .dispatched 6 0 10 ∈ μ.log := of_decide_eq_true given
  obtain ⟨inStep, served⟩ := called_of_submission execution shown
  obtain ⟨inStep', info, left, worked⟩ := fetched_of_shows { input := submittedWork }
    rfl (by decide) (by decide) rfl works frame blankInfo
  have begun : run σ [] = .ok σ := rfl
  obtain ⟨first, e, tail, ρ, ρ', t, tr, split, ran, done, received, _, found, _, delivers⟩ :=
    requests_delivered reach begun (by decide) (by decide) (by decide) (by decide) served
      inStep (by decide)
  have ten : t = 10 := by
    rcases first with _ | ⟨e₁, _ | ⟨e₂, _ | ⟨e₃, first⟩⟩⟩
    · obtain ⟨rfl, _⟩ := List.cons.inj split
      obtain rfl := Except.ok.inj ran
      cases typed.symm.trans received
    · simp only [submitting, List.cons_append, List.nil_append, List.cons.injEq] at split
      obtain ⟨rfl, rfl, _⟩ := split
      have both : run σ (submitting.take 2) = .ok ρ' := run_concat_ok_iff.mpr ⟨ρ, ran, done⟩
      obtain rfl := Except.ok.inj (ran₂.symm.trans both)
      have here := ((inv_of_reachable (reach.run both)).own.mem_transactions t).mpr ⟨tr, found⟩
      rw [one] at here
      exact List.mem_singleton.mp here
    · simp only [submitting, List.cons_append, List.nil_append, List.cons.injEq] at split
      obtain ⟨rfl, rfl, rfl, _⟩ := split
      obtain rfl := Except.ok.inj (ran₂.symm.trans ran)
      cases uploads.symm.trans received
    · have lengths := congrArg List.length split
      simp [submitting] at lengths
  subst ten
  have fresh : ¬τ.Dispatched 10 := by
    rw [← State.mem_handedOut_iff, undispatched]
    exact List.not_mem_nil
  refine ⟨σ, τ, μ, info, left, reach, served, inStep, given, worked, inStep', ?_⟩
  exact delivers [asksForWork] submitting [] asksForWork [] [] τ μ τ μ 6 0 _ blankInfo _ _ left rfl
    execution rfl works fresh given worked inStep'

/-! ## A process out of step -/

/-- What a failed reply holds behind the descriptor: the code `TPESVCERR`, and no data. -/
def unread : Bytes :=
  longBytes (BitVec.ofNat 64 TPESVCERR) ++ longBytes 0

/-- What client 0 is sent: the answers to `tpadvertise` and `tpacall`, a failed reply, and a
transaction. -/
def workerInput : Bytes :=
  shortBytes 0 ++ (0 :: shortBytes 11 ++ ([3, 11, 0] ++ (unread ++ submittedWork)))

/-- What `tpacall` of client 0 finds and leaves. -/
def nesting : Session :=
  advertisedWith 7 (0 :: shortBytes 11 ++ ([3, 11, 0] ++ (unread ++ submittedWork)))

def nested : Session :=
  { nesting with
    input := [3, 11, 0] ++ (unread ++ submittedWork)
    output := nesting.output ++ TPTCALL :: callMessage (svcname 66) 0 0 }

/-- What its `tpgetrply` leaves. -/
def stranded : Session :=
  { nested with
    input := unread ++ submittedWork
    output := nested.output ++ TPTGRPLY :: (shortBytes 11 ++ longBytes 0)
    tperrno := 11 }

/-- The arguments of its `tpgetrply`. -/
def collects : Getrply :=
  { cd := 11, data := some [], len := 1 }

/-- Client 4, which has been given the call of client 0, hangs up while client 0 waits for the
reply. -/
def deserting : List Event :=
  getrply 0 11 0 ++ [hangUp 4]

/-- The whole run, from where client 4 rests. -/
def stranding : List Event :=
  advertising 7 ++ (call 0 66 0 11 ++ (deserting ++ (submitting ++ [asksForWork])))

/-- Client 0 collects a failed reply, and is given transaction 24 afterwards. -/
def showsStranding (σ₀ : State) : Bool :=
  permitted PicksNew σ₀ stranding && (decide (σ₀.sent 0 = []) &&
  (run σ₀ (advertising 7)).toOption.any fun (σ₁ : State) => showsAdvertising σ₀ 7 σ₁ &&
    (run σ₁ (call 0 66 0 11)).toOption.any fun (σ₂ : State) =>
      showsCalled 0 σ₁ (call 0 66 0 11) σ₂ (TPTCALL :: callMessage (svcname 66) 0 0)
        (workerInput.take 5) &&
      (run σ₂ deserting).toOption.any fun (σ₃ : State) =>
        showsCalled 0 σ₂ deserting σ₃ (TPTGRPLY :: (shortBytes 11 ++ longBytes 0))
          (workerInput.take 16) &&
        (run σ₃ submitting).toOption.any fun (σ₄ : State) => showsSubmission σ₃ σ₄ &&
          (step σ₄ asksForWork).toOption.any fun (σ₅ : State) =>
            showsCalled 0 σ₄ [asksForWork] σ₅ [TPTWORK] workerInput &&
              decide ((σ₄.tran 24).map Transaction.client = some 2 ∧ 24 ∉ σ₄.handedOut ∧
                .dispatched 13 0 24 ∈ σ₅.log))

theorem fetchService_stranded : ∃ info left,
    fetchService blankInfo stranded = ((info, some 10), left) ∧
      left.output = stranded.output ++ [TPTWORK] ∧ info.len = 0 ∧ info.flags = 0 ∧ info.cd = 2 ∧
      info.data = some [] := by
  obtain ⟨info, fetched, _, len, flags, cd, data⟩ :=
    @fetchService_run ((unread ++ submittedWork).drop 4 |>.take 15) 0 2 stranded 10 []
      ((unread ++ submittedWork).drop 29) blankInfo rfl (by decide) (by decide) (by decide)
  exact ⟨info, _, fetched, rfl, len, flags, cd, data⟩

/-- Client 0 has collected a failed reply, of which `tpgetrply` has left eight bytes. Client 2 calls
`A` with two bytes of data, flags 5 and descriptor 9, and client 0, which has advertised the address
7 for `A`, is given the transaction in `tpservice`: it calls the address 10 with no data, flags 0
and descriptor 2. -/
theorem requests_misread : ∃ σ₀ σ₁ σ₂ σ₃ σ₄ σ₅ info left,
    Reachable PicksNew σ₀ ∧ Meets PicksNew σ₀ stranding ∧
    InStep workerInput 0 σ₀ { input := workerInput } ∧
    Called workerInput 0 σ₀ (advertising 7) σ₁ (tpadvertise (some (svcname 65)) 7)
      { input := workerInput } 0 nesting ∧
    Called workerInput 0 σ₁ (call 0 66 0 11) σ₂ (tpacall (some (svcname 66)) none 0 0) nesting 11
      nested ∧
    Called workerInput 0 σ₂ deserting σ₃ (tpgetrply (some collects) 0) nested
      (-1, some collects) stranded ∧
    InStep calling.input 2 σ₃ calling ∧
    Called calling.input 2 σ₃ submitting σ₄ (tpacall (some (svcname 65)) (some [7, 8]) 2 5) calling
      9 called ∧
    (σ₄.tran 24).map Transaction.client = some 2 ∧ ¬σ₄.Dispatched 24 ∧
    .dispatched 13 0 24 ∈ σ₅.log ∧
    Called workerInput 0 σ₄ [asksForWork] σ₅ (fetchService blankInfo) stranded
      (info, some 10) left ∧
    info.len = 0 ∧ info.flags = 0 ∧ info.cd = 2 ∧ info.data = some [] := by
  obtain ⟨σ₀, reach, seen⟩ := reachable_of_permitted
    ([connect, connect, connect] ++ advertise 4 66 ++ work 4) showsStranding true
    (show permitted PicksNew _ _ = true by decide +kernel) (by decide +kernel)
  obtain ⟨new, seen⟩ := Bool.and_eq_true_iff.mp seen
  obtain ⟨opened, seen⟩ := Bool.and_eq_true_iff.mp seen
  have opened : σ₀.sent 0 = [] := of_decide_eq_true opened
  obtain ⟨σ₁, ran₁, seen⟩ := ok_of_any seen
  obtain ⟨shown₁, seen⟩ := Bool.and_eq_true_iff.mp seen
  obtain ⟨σ₂, ran₂, seen⟩ := ok_of_any seen
  obtain ⟨shown₂, seen⟩ := Bool.and_eq_true_iff.mp seen
  obtain ⟨σ₃, ran₃, seen⟩ := ok_of_any seen
  obtain ⟨shown₃, seen⟩ := Bool.and_eq_true_iff.mp seen
  obtain ⟨σ₄, ran₄, seen⟩ := ok_of_any seen
  obtain ⟨shown₄, seen⟩ := Bool.and_eq_true_iff.mp seen
  obtain ⟨σ₅, done₅, seen⟩ := ok_of_any seen
  obtain ⟨shown₅, seen⟩ := Bool.and_eq_true_iff.mp seen
  obtain ⟨owner, fresh, given⟩ := of_decide_eq_true seen
  obtain ⟨inStep₄, called₄⟩ := called_of_submission ran₄ shown₄
  obtain ⟨info, left, fetched, output, len, flags, cd, data⟩ := fetchService_stranded
  refine ⟨σ₀, σ₁, σ₂, σ₃, σ₄, σ₅, info, left, reach, .of_permitted new, ?_, ?_, ?_, ?_,
    inStep₄, called₄, owner, ?_, given, ?_, len, flags, cd, data⟩
  · rw [InStep, opened]
    rfl
  · have called₁ := called_of_shows (by decide) ran₁ shown₁
      (0 :: shortBytes 11 ++ ([3, 11, 0] ++ (unread ++ submittedWork)))
    rw [opened] at called₁
    exact called₁
  · exact .of_shows ran₂ shown₂ rfl rfl rfl (List.take_prefix _ _)
  · exact .of_shows ran₃ shown₃ rfl rfl rfl (List.take_prefix _ _)
  · rw [← State.mem_handedOut_iff]
    exact fresh
  · exact .of_shows (run_cons_ok_iff.mpr ⟨σ₅, done₅, rfl⟩) shown₅ rfl fetched output List.prefix_rfl

end Library
end Xatmi
