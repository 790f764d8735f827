import Xatmi.Library.InStep

/-!
# Function pointers

What `tpadvertise` gives to the switchboard is what `tpservice` calls.  The address travels as four
bytes in either direction, and the switchboard compares what is left of it.
-/

namespace Xatmi
namespace Library

open Switchboard

variable {whole : Bytes} {σ τ ρ : State} {c : ClientId} {events : List Event}
  {before after : Session}

theorem pointer_of_advert (inv : Inv ⟨{}, σ⟩) {a : AdvertId} {v : Advert} {svc : Service}
    (advert : σ.advert a = some v) (owner : v.client = c) (service : σ.service v.svc = some svc) :
    σ.offers c (cname svc.svcname) = some v.opaqueFunc :=
  (offers_eq_some_iff inv.registry).mpr ⟨a, v, svc, advert, owner, service, rfl, rfl⟩

/-- An address that fits an `int` survives. Once `tpadvertise` has returned 0 for it, and as long as
the client does not withdraw the name, whatever transaction for the name the client is given while
it is in `tpservice`, `tpservice` calls that address, and to advertise another address for the name
fails with `TPEMATCH`; provided that the process is in step whenever it makes one of these calls. -/
theorem pointers_survive {name : Bytes} {func : BitVec 64} {later : List Event}
    (reach : Reachable anyStep σ) (full : name.length = XATMI_SERVICE_NAME_LENGTH)
    (fits : -2 ^ 31 ≤ func.toInt ∧ func.toInt < 2 ^ 31)
    (advertised : Called whole c σ events τ (tpadvertise (some name) func) before 0 after)
    (inStep : InStep whole c σ before) (execution : run τ later = .ok ρ)
    (keeps : ∀ first e rest μ, later = first ++ e :: rest → run τ first = .ok μ →
      Keeps c (cname name) μ e) :
    (∀ first head e tail κ κ' ρ' new a t tr svc svcinfo session fetched left,
      later = first ++ head → run τ first = .ok κ →
      Called whole c κ (head ++ e :: tail) κ' (fetchService svcinfo) session fetched left →
      InStep whole c κ session → step ρ e = .ok ρ' → ρ'.log = new ++ ρ.log →
      .dispatched a c t ∈ new → ρ'.tran t = some tr → ρ'.service tr.svc = some svc →
      cname svc.svcname = cname name →
      ∃ info, fetched = (info, some func) ∧ ∀ routine,
        tpservice routine (some svcinfo) session = (some <$> callService routine func info) left) ∧
    ∀ other events' ρ' session result left, other ≠ func → other ≠ 0 →
      -2 ^ 31 ≤ other.toInt ∧ other.toInt < 2 ^ 31 →
      Called whole c ρ events' ρ' (tpadvertise (some name) other) session result left →
      InStep whole c ρ session → result = -1 ∧ left.tperrno = BitVec.ofNat 32 TPEMATCH := by
  have reachτ : Reachable anyStep τ := reach.run advertised.execution
  have reachρ : Reachable anyStep ρ := reachτ.run execution
  have inv := inv_of_reachable reachρ
  have survives := (wire_eq_self_iff func).mpr fits
  have nonnull : func ≠ 0 := by
    rintro rfl
    have failed : (0 : BitVec 32) = -1 :=
      (congrArg Prod.fst advertised.calls).symm.trans (tpadvertise_null (some name) before)
    exact absurd failed (by decide)
  have stored : c ∈ ρ.clients → ρ.offers c (cname name) = some func := by
    intro connected
    obtain ⟨first, returned, _⟩ := advertised.tpadvertise inStep reach full nonnull
    refine offers_of_run reachτ ?_ execution connected keeps
    split at returned
    · rename_i same
      rw [first, same, survives]
    · have failed : (0 : BitVec 32) = -1 := congrArg Prod.fst returned
      exact absurd failed (by decide)
  constructor
  · intro first head e tail κ κ' ρ' new a t tr svc svcinfo session fetched left split ran called
      inStep' done log seen found service named
    subst split
    obtain ⟨_, ran', toρ⟩ := run_append_ok_iff.mp execution
    obtain rfl := Except.ok.inj (ran.symm.trans ran')
    obtain ⟨_, given⟩ := given_of_log inv done log seen
    obtain ⟨v, tr', svc₀, data, info, handed, _, rfl, _⟩ :=
      called.fetches inStep' (reachτ.run ran) toρ done given
    obtain rfl := Option.some.inj (found.symm.trans handed.found)
    have name_eq : svc₀.svcname = svc.svcname := by
      rw [handed.same] at service
      rcases service_of_trace (step_trace inv done) service with ⟨old, current, same⟩ | young
      · obtain rfl := Option.some.inj (handed.service.symm.trans current)
        exact same
      · have old := (inv.waits.old (.head v.svc) (Option.isSome_of_eq_some handed.service)).1
        exact absurd old (Nat.not_lt.mpr young)
    obtain ⟨x, live, _⟩ := inv.registry.offered a v handed.advert (by simp)
    have connected : c ∈ ρ.clients := (inv.registry.mem_clients c).mpr ⟨x, handed.owner ▸ live⟩
    have pointer : v.opaqueFunc = func := by
      have mine := pointer_of_advert inv handed.advert handed.owner handed.service
      rw [name_eq, named, stored connected] at mine
      exact (Option.some.inj mine).symm
    have calls := called.calls
    rw [pointer, survives] at calls
    exact ⟨info, by rw [pointer, survives], tpservice_of_fetch calls⟩
  · intro other events' ρ' session result left different nonnull' fits' again inStep'
    have connected : c ∈ ρ.clients := again.starts.connected inv
    obtain ⟨_, returned, _⟩ := again.tpadvertise inStep' reachρ full nonnull'
    rw [stored connected, (wire_eq_self_iff other).mpr fits', Option.getD_some,
      if_neg different.symm, Prod.mk.injEq] at returned
    exact returned

/-! ## One advertisement and one call of it -/

open Scenario

/-- Client 0 advertises an address for `A`. -/
def advertising (func : BitVec 64) : List Event :=
  message 0 TPTADVT (svcname 65 ++ longBytes func) 0

/-- Client 0 asks for work. -/
def asksForWork : Event :=
  receive 0 [TPTWORK] 0

/-- Client 2 has called `A`, and client 0 is told to call the address 7. -/
def givenAdvert : Advert :=
  ⟨5, 0, 7⟩

def givenCall : Transaction :=
  { client := 2, svc := 5, arrival := ⟨0, 0⟩, cd := 9, data := 0, flags := 0 }

def sentWork : Bytes :=
  workFrame givenAdvert givenCall (svcname 65) []

/-- What `tpadvertise` finds when the address is stored and `more` is sent afterwards. -/
def advertisingWith (more : Bytes) : Session :=
  { input := shortBytes 0 ++ more }

/-- What it leaves. -/
def advertisedWith (func : BitVec 64) (more : Bytes) : Session :=
  { input := more, output := TPTADVT :: (svcname 65 ++ longBytes func) }

/-- The call of `tpadvertise` is served. -/
def showsAdvertising (σ : State) (func : BitVec 64) (τ : State) : Bool :=
  showsCalled 0 σ (advertising func) τ (TPTADVT :: (svcname 65 ++ longBytes func))
    (σ.sent 0 ++ shortBytes 0)

theorem called_of_shows {func : BitVec 64} (nonnull : func ≠ 0)
    (execution : run σ (advertising func) = .ok τ) (shown : showsAdvertising σ func τ = true)
    (more : Bytes) :
    Called (σ.sent 0 ++ shortBytes 0 ++ more) 0 σ (advertising func) τ
      (tpadvertise (some (svcname 65)) func)
      (advertisingWith more) 0 (advertisedWith func more) := by
  refine .of_shows execution shown rfl ?_ rfl (List.prefix_append _ _)
  have available : ((advertisingWith more).advertising (svcname 65) func).input =
      shortBytes 0 ++ more := rfl
  rw [tpadvertise_run nonnull rfl, readCode_run available]
  rfl

/-- Client 0 asks for work, and is sent `frame`. -/
def showsFetch (ρ ρ' : State) (frame : Bytes) : Bool :=
  showsCalled 0 ρ [asksForWork] ρ' [TPTWORK] (ρ.sent 0 ++ frame)

theorem fetched_of_shows {ρ' : State} {v : Advert} {tr : Transaction} {svcname data : Bytes}
    (session : Session) (writable : session.writable = true)
    (full : svcname.length = XATMI_SERVICE_NAME_LENGTH) (short : data.length < 2 ^ 31)
    (input : session.input = workFrame v tr svcname data) (worked : step ρ asksForWork = .ok ρ')
    (shown : showsFetch ρ ρ' (workFrame v tr svcname data) = true) (svcinfo : TPSVCINFO) :
    InStep (ρ'.sent 0) 0 ρ session ∧
      ∃ info left, Called (ρ'.sent 0) 0 ρ [asksForWork] ρ' (fetchService svcinfo) session
        (info, some (wire v.opaqueFunc)) left := by
  obtain ⟨_, _, _, sent⟩ := of_decide_eq_true shown
  obtain ⟨info, _, reads⟩ := fetchService_frame svcinfo writable full short
    (input.trans (List.append_nil _).symm)
  have execution : run ρ [asksForWork] = .ok ρ' := run_cons_ok_iff.mpr ⟨ρ', worked, rfl⟩
  refine ⟨sent.trans (by rw [input]), info, _, .of_shows execution shown writable reads rfl ?_⟩
  rewrite [sent]
  exact List.prefix_rfl

/-- Transaction 10, for `A`, is given to client 0. -/
def showsGiven (ρ ρ' : State) : Bool :=
  decide (∃ tr ∈ ρ'.tran 10, ∃ svc ∈ ρ'.service tr.svc,
    ρ'.log = ρ'.log.take (ρ'.log.length - ρ.log.length) ++ ρ.log ∧
      .dispatched 6 0 10 ∈ ρ'.log.take (ρ'.log.length - ρ.log.length) ∧
      cname svc.svcname = cname (svcname 65))

/-- Client 2 calls `A` after client 0 has advertised an address for it, and client 0 asks for
work. -/
def showsCall (func : BitVec 64) (σ : State) : Bool :=
  (run σ (advertising func)).toOption.any fun (τ : State) =>
    decide (σ.sent 0 = []) && (showsAdvertising σ func τ &&
      (run τ (call 2 65 0 9)).toOption.any fun (ρ : State) => decide (ρ.sent 0 = shortBytes 0) &&
        (step ρ asksForWork).toOption.any fun ρ' =>
          showsFetch ρ ρ' sentWork && showsGiven ρ ρ')

/-- What `tpservice` fills. -/
def blankInfo : TPSVCINFO :=
  ⟨fun _ => 0, none⟩

theorem pointers_survive_low :
    ∃ σ τ ρ ρ' info left, Reachable anyStep σ ∧
      Called (shortBytes 0 ++ sentWork) 0 σ (advertising 7) τ (tpadvertise (some (svcname 65)) 7)
        (advertisingWith sentWork) 0 (advertisedWith 7 sentWork) ∧
      run τ (call 2 65 0 9) = .ok ρ ∧
      Called (shortBytes 0 ++ sentWork) 0 ρ [asksForWork] ρ' (fetchService blankInfo)
        (advertisedWith 7 sentWork) (info, some 7) left ∧
      ∃ info', (info, some (7 : BitVec 64)) = (info', some 7) ∧ ∀ routine,
        tpservice routine (some blankInfo) (advertisedWith 7 sentWork) =
          (some <$> callService routine 7 info') left := by
  obtain ⟨σ, _, reach, seen⟩ := reachable_of_outcome [connect, connect] (showsCall 7) true
    (by decide +kernel)
  obtain ⟨τ, executed, seen⟩ := ok_of_any seen
  obtain ⟨opened, seen⟩ := Bool.and_eq_true_iff.mp seen
  obtain ⟨shown, seen⟩ := Bool.and_eq_true_iff.mp seen
  obtain ⟨ρ, later, seen⟩ := ok_of_any seen
  obtain ⟨begun, seen⟩ := Bool.and_eq_true_iff.mp seen
  obtain ⟨ρ', worked, seen⟩ := ok_of_any seen
  obtain ⟨frame, seen⟩ := Bool.and_eq_true_iff.mp seen
  have opened : σ.sent 0 = [] := of_decide_eq_true opened
  have begun : ρ.sent 0 = shortBytes 0 := of_decide_eq_true begun
  have sent : ρ'.sent 0 = shortBytes 0 ++ sentWork := begun ▸ (of_decide_eq_true frame).2.2.2
  have called := called_of_shows (by decide) executed shown sentWork
  rw [opened, List.nil_append] at called
  obtain ⟨inStep', info, left, fetched⟩ := fetched_of_shows (advertisedWith 7 sentWork)
    rfl (by decide) (by decide) rfl worked frame blankInfo
  rw [sent] at inStep' fetched
  obtain ⟨tr, found, svc, service, log, given, named⟩ := of_decide_eq_true seen
  have inStep : InStep (shortBytes 0 ++ sentWork) 0 σ (advertisingWith sentWork) := by
    rw [InStep, opened]
    rfl
  have keeps : ∀ first e rest μ, call 2 65 0 9 = first ++ e :: rest → run τ first = .ok μ →
      Keeps 0 (cname (svcname 65)) μ e := by
    intro first e rest μ split _ filled received
    obtain ⟨input, _, _, _, _, ready, _⟩ := received_elim received
    have other : e ∈ call 2 65 0 9 := split ▸ List.mem_append_right first List.mem_cons_self
    simp only [call, message, List.mem_cons, List.not_mem_nil, or_false] at other
    rcases other with rfl | rfl <;> cases ready
  refine ⟨σ, τ, ρ, ρ', info, left, reach, called, later, fetched, ?_⟩
  exact (pointers_survive reach (by decide) (by decide) called inStep later keeps).1
    (call 2 65 0 9) [] asksForWork [] ρ ρ' ρ' _ 6 10 tr svc blankInfo _ _ left
    (List.append_nil _).symm later fetched inStep' worked log given found service named

/-- An address beyond an `int` is cut. Client 0 advertises the address 4294967303, and `tpadvertise`
returns 0; `tpservice` then calls the address 7, and to advertise that one too succeeds. The process
is in step all the time. -/
theorem pointers_are_cut :
    ∃ σ τ ρ ρ' info left, Reachable anyStep σ ∧
      Called (shortBytes 0 ++ sentWork) 0 σ (advertising 0x100000007) τ
        (tpadvertise (some (svcname 65)) 0x100000007) (advertisingWith sentWork) 0
        (advertisedWith 0x100000007 sentWork) ∧
      InStep (shortBytes 0 ++ sentWork) 0 σ (advertisingWith sentWork) ∧
      (7 : BitVec 64) ≠ 0x100000007 ∧
      (∃ τ', Called (shortBytes 0 ++ shortBytes 0) 0 τ (advertising 7) τ'
        (tpadvertise (some (svcname 65)) 7) (advertisingWith []) 0 (advertisedWith 7 []) ∧
        InStep (shortBytes 0 ++ shortBytes 0) 0 τ (advertisingWith [])) ∧
      run τ (call 2 65 0 9) = .ok ρ ∧
      (∃ new, ρ'.log = new ++ ρ.log ∧ .dispatched 6 0 10 ∈ new) ∧
      Called (shortBytes 0 ++ sentWork) 0 ρ [asksForWork] ρ' (fetchService blankInfo)
        (advertisedWith 0x100000007 sentWork) (info, some 7) left ∧
      InStep (shortBytes 0 ++ sentWork) 0 ρ (advertisedWith 0x100000007 sentWork) := by
  obtain ⟨σ, _, reach, seen⟩ := reachable_of_outcome [connect, connect]
    (fun (σ : State) => showsCall 0x100000007 σ &&
      (run σ (advertising 0x100000007)).toOption.any fun (τ : State) =>
        decide (τ.sent 0 = shortBytes 0) && (run τ (advertising 7)).toOption.any fun τ' =>
          showsAdvertising τ 7 τ') true (by decide +kernel)
  obtain ⟨seen, again⟩ := Bool.and_eq_true_iff.mp seen
  obtain ⟨τ, executed, seen⟩ := ok_of_any seen
  obtain ⟨opened, seen⟩ := Bool.and_eq_true_iff.mp seen
  obtain ⟨shown, seen⟩ := Bool.and_eq_true_iff.mp seen
  obtain ⟨ρ, later, seen⟩ := ok_of_any seen
  obtain ⟨begun, seen⟩ := Bool.and_eq_true_iff.mp seen
  obtain ⟨ρ', worked, seen⟩ := ok_of_any seen
  obtain ⟨frame, seen⟩ := Bool.and_eq_true_iff.mp seen
  obtain ⟨_, executed', again⟩ := ok_of_any again
  obtain rfl := Except.ok.inj (executed.symm.trans executed')
  obtain ⟨answered, again⟩ := Bool.and_eq_true_iff.mp again
  obtain ⟨τ', executed', shown'⟩ := ok_of_any again
  have opened : σ.sent 0 = [] := of_decide_eq_true opened
  have begun : ρ.sent 0 = shortBytes 0 := of_decide_eq_true begun
  have sent : ρ'.sent 0 = shortBytes 0 ++ sentWork := begun ▸ (of_decide_eq_true frame).2.2.2
  have answered : τ.sent 0 = shortBytes 0 := of_decide_eq_true answered
  have called := called_of_shows (by decide) executed shown sentWork
  rw [opened, List.nil_append] at called
  have called' := called_of_shows (by decide) executed' shown' []
  rw [answered, List.append_nil] at called'
  obtain ⟨inStep', info, left, fetched⟩ := fetched_of_shows
    (advertisedWith 0x100000007 sentWork) rfl (by decide) (by decide) rfl worked frame
    blankInfo
  rw [sent] at inStep' fetched
  obtain ⟨_, _, _, _, log, given, _⟩ := of_decide_eq_true seen
  refine ⟨σ, τ, ρ, ρ', info, left, reach, called, ?_, by decide, ⟨τ', called', ?_⟩, later,
    ⟨_, log, given⟩, fetched, inStep'⟩
  · rw [InStep, opened]
    rfl
  · rw [InStep, answered]
    rfl

end Library
end Xatmi
