import Xatmi.Switchboard.Assignment
import Xatmi.Switchboard.Scenario

/-!
# Workers at work

What a worker and others may do between the moment a transaction is dispatched and the `TPTRETN` for
it. A worker that calls other services keeps its assignment until it gets a reply, or waits for one.
A worker that makes no calls keeps its assignment until the client that submitted the transaction is
deleted.
-/

namespace Xatmi
namespace Switchboard

open Program

variable {σ₀ σ₁ σ τ : State} {e : Event} {w : ClientId} {a : AdvertId} {t : TranId}
  {tr : Transaction}

/-! ## Requests that are refused -/

instance (σ : State) (request : Bytes) (t : TranId) : Decidable (σ.Asked request t) :=
  inferInstanceAs (Decidable (AsksAny request ∨ ∃ tr ∈ σ.tran t, tr.cd = toshort request))

/-- A `TPTGRPLY` of client `c` with this request gets an error: the reply is not there, and the
client does not want to wait or has nothing to wait for. -/
def State.Refuses (σ : State) (c : ClientId) (request : Bytes) : Prop :=
  ∀ x ∈ σ.client c, (∀ t ∈ x.replies, ¬σ.Asked request t) ∧
    (AsksNow request ∨ ¬AsksAny request ∧ ∀ t ∈ x.requests, ¬σ.Asked request t)

instance (σ : State) (c : ClientId) (request : Bytes) : Decidable (σ.Refuses c request) :=
  inferInstanceAs (Decidable (∀ x ∈ σ.client c, _ ∧ _))

theorem findCd_eq_none {request : Bytes} {queue : List TranId}
    (missing : ∀ t ∈ queue, ¬σ.Asked request t) :
    σ.findCd queue (toshort request) = none :=
  findCd_eq_none_iff.mpr fun t member same => missing t member (.inr same)

theorem svrgetrply_refused {c : ClientId} {b : BufId} {request : Bytes} {x : Client}
    (room : σ.buf b = some request) (live : σ.client c = some x) (idle : x.Idle)
    (refuses : σ.Refuses c request) :
    ∃ errno, svrgetrply c b σ =
      .ok (⟨⟩, ((σ.freeBuf b).write c (errorFrame errno)).nextCommand c) := by
  obtain ⟨missing, nothing⟩ := refuses x live
  have live' : (σ.freeBuf b).client c = some x := live
  have error : ∀ errno, senderrno c errno (σ.freeBuf b) =
      .ok (⟨⟩, ((σ.freeBuf b).write c (errorFrame errno)).nextCommand c) :=
    fun errno => senderrno_ok_iff.mpr ⟨⟨x, live', idle⟩, rfl⟩
  have search : ∀ queue cd, (σ.freeBuf b).findCd queue cd = σ.findCd queue cd := fun _ _ => rfl
  have reply : (if tolong (request.drop IOSHORT) &&& TPGETANY = 0 then σ.findCd x.replies
      (toshort request) else x.replies.head?) = none := by
    split
    · exact findCd_eq_none missing
    · next any =>
        refine List.head?_eq_none_iff.mpr (List.eq_nil_iff_forall_not_mem.mpr fun t member => ?_)
        exact missing t member (.inl any)
  unfold svrgetrply
  rw [bind_of_ok (readBuf_ok_iff.mpr ⟨room, rfl⟩)]
  simp only [seq_of_ok (tpfree_ok_iff.mpr ⟨⟨request, room⟩, rfl⟩)]
  rw [bind_of_ok (readClient_ok_iff.mpr ⟨live', rfl⟩), bind_of_ok (get_ok_iff.mpr ⟨rfl, rfl⟩)]
  simp only [search, reply]
  cases awaited : (if tolong (request.drop IOSHORT) &&& TPGETANY = 0
      then (σ.findCd x.requests (toshort request)).map Wait.tran else some .any) with
  | none => exact ⟨_, error TPEBADDESC⟩
  | some v =>
      have now : AsksNow request := by
        refine nothing.resolve_right fun ⟨one, none_⟩ => ?_
        rw [if_pos (not_not.mp one), findCd_eq_none none_] at awaited
        cases awaited
      exact ⟨_, (congrFun (if_pos now) _).trans (error TPEBLOCK)⟩

/-- A worker whose request is refused goes on executing. -/
theorem Assigned.refused {request : Bytes} (assigned : Assigned w a t tr {} σ)
    (received : Received σ e w .svrgetrply request) (refuses : σ.Refuses w request)
    (done : step σ e = .ok τ) :
    Assigned w a t tr {} τ := by
  obtain ⟨x, b, contents, live, into, reading, room, length, nonempty, called⟩ :=
    step_of_received received
  let μ := σ.begin w .svrgetrply b request
  have begun : μ.client w = some { x with handler := none, input := none, used := 0 } :=
    change_eq_some_iff.mpr ⟨x, live, (if_pos rfl).symm⟩
  have refuses' : μ.Refuses w request := by
    intro y live'
    obtain rfl := Option.some.inj (begun.symm.trans live')
    exact refuses x live
  obtain ⟨errno, refused⟩ := svrgetrply_refused (if_pos rfl) begun ⟨rfl, rfl, rfl⟩ refuses'
  have result : step σ e = .ok (((μ.freeBuf b).write w (errorFrame errno)).nextCommand w) := by
    rw [called]
    exact congrArg (Except.map Prod.snd) refused
  obtain rfl := Except.ok.inj (result.symm.trans done)
  refine assigned.of_change (change_change _ _ _ _) (fun _ _ => rfl) (fun _ => id) rfl (fun _ => id)
    assigned.attached ?_ assigned.unfinished
  rintro (⟨c, v, advert, owner, linked⟩ | parked)
  · exact assigned.away (.inl ⟨c, v, advert, owner, linked⟩)
  · exact assigned.away (.inr parked)

/-! ## Nested calls -/

/-- What a service routine that calls other services sends before it returns, if no reply is taken
or waited for. -/
def State.Nested (σ : State) (w : ClientId) : Handler → Bytes → Prop
  | .command, filled => filled.getD 0 0 ∈ [TPTCALL, TPTGRPLY, TPTRETN]
  | .svracall, _ => True
  | .sendToWorker, _ => True
  | .svrgetrply, request => σ.Refuses w request
  | _, _ => False

instance (σ : State) (w : ClientId) (handler : Handler) (filled : Bytes) :
    Decidable (σ.Nested w handler filled) :=
  match handler with
  | .command => inferInstanceAs (Decidable (_ ∈ _))
  | .svracall | .sendToWorker => inferInstanceAs (Decidable True)
  | .svrgetrply => inferInstanceAs (Decidable (σ.Refuses w filled))
  | .svradvertise | .svrunadvertise | .svrservice | .svrreturn | .part2 =>
      inferInstanceAs (Decidable False)

/-- Nothing is dispatched twice, nobody is deleted, and worker `w` makes nested calls. -/
structure Nests (w : ClientId) (σ : State) (e : Event) : Prop where
  new : PicksNew σ e
  connected : ∀ c ∈ σ.clients, ¬Closes σ e c
  calls : ∀ found ∈ received σ e, found.1 = w → σ.Nested w found.2.1 found.2.2

instance (w : ClientId) (σ : State) (e : Event) : Decidable (Nests w σ e) :=
  decidable_of_iff (PicksNew σ e ∧ (∀ c ∈ σ.clients, ¬Closes σ e c) ∧
      ∀ found ∈ received σ e, found.1 = w → σ.Nested w found.2.1 found.2.2)
    ⟨fun ⟨new, connected, calls⟩ => ⟨new, connected, calls⟩, fun ⟨new, connected, calls⟩ =>
      ⟨new, connected, calls⟩⟩

theorem Nests.nested {handler : Handler} {filled : Bytes} (nests : Nests w σ e)
    (received : Received σ e w handler filled) : σ.Nested w handler filled :=
  nests.calls (w, handler, filled) received rfl

theorem Nests.leavesWork (nests : Nests w σ e)
    (silent : ¬∃ request, Received σ e w .svrgetrply request) (k : ClientId) :
    LeavesWork σ e w a k where
  new := nests.new
  worker := fun closes => nests.connected w closes.connected closes
  owner := fun closes => nests.connected k closes.connected closes
  offers := fun ⟨_, received, _⟩ => nests.nested received
  busy := by
    rintro ⟨filled, received, work⟩
    have calls : filled.getD 0 0 ∈ [TPTCALL, TPTGRPLY, TPTRETN] := nests.nested received
    rw [work] at calls
    exact absurd calls (by decide)
  silent := silent
  executes := fun ⟨_, received⟩ => received.elim (fun received => nests.nested received)
    fun received =>
    nests.nested received

theorem Assigned.nested (assigned : Assigned w a t tr {} σ) (sound : Sound ⟨{}, σ⟩)
    (nests : Nests w σ e) (done : step σ e = .ok τ) : Assigned w a t tr {} τ := by
  by_cases asks : ∃ request, Received σ e w .svrgetrply request
  · obtain ⟨request, received⟩ := asks
    exact assigned.refused received (nests.nested received) done
  · exact assigned.of_step sound (nests.leavesWork asks tr.client) done

theorem Assigned.calls (assigned : Assigned w a t tr {} σ₁) (reach : Reachable PicksNew σ₁)
    (steps : Steps (Nests w) σ₁ σ) : Assigned w a t tr {} σ := by
  induction steps with
  | refl => exact assigned
  | tail sofar last ih =>
      obtain ⟨e, nests, done⟩ := last
      have sound := sound_of_reachable (reach.steps (fun _ _ nests => nests.new) sofar)
      exact ih.nested sound nests done

/-! ## While the data of a result arrives -/

/-- Nothing is dispatched twice, neither worker `w` nor client `k` is deleted, and nothing of the
worker is complete. -/
structure Arrives (w k : ClientId) (σ : State) (e : Event) : Prop where
  new : PicksNew σ e
  worker : ¬Closes σ e w
  owner : ¬Closes σ e k
  incomplete : ∀ found ∈ received σ e, found.1 ≠ w

instance (w k : ClientId) (σ : State) (e : Event) : Decidable (Arrives w k σ e) :=
  decidable_of_iff
    (PicksNew σ e ∧ ¬Closes σ e w ∧ ¬Closes σ e k ∧ ∀ found ∈ received σ e, found.1 ≠ w)
    ⟨fun ⟨new, worker, owner, incomplete⟩ => ⟨new, worker, owner, incomplete⟩,
      fun ⟨new, worker, owner, incomplete⟩ => ⟨new, worker, owner, incomplete⟩⟩

theorem Arrives.leavesWork {k : ClientId} (arrives : Arrives w k σ e) : LeavesWork σ e w a k where
  new := arrives.new
  worker := arrives.worker
  owner := arrives.owner
  offers := fun ⟨_, received, _⟩ => arrives.incomplete _ received rfl
  busy := fun ⟨_, received, _⟩ => arrives.incomplete _ received rfl
  silent := fun ⟨_, received⟩ => arrives.incomplete _ received rfl
  executes := fun ⟨_, received⟩ => received.elim (fun received => arrives.incomplete _ received rfl)
    fun received =>
    arrives.incomplete _ received rfl

theorem Assigned.arrives (assigned : Assigned w a t tr {} σ₁) (reach : Reachable PicksNew σ₁)
    (returning : σ₁.Returning w tr) (steps : Steps (Arrives w tr.client) σ₁ σ) :
    Assigned w a t tr {} σ ∧ σ.Returning w tr := by
  induction steps with
  | refl => exact ⟨assigned, returning⟩
  | tail sofar last ih =>
      obtain ⟨e, arrives, done⟩ := last
      obtain ⟨assigned, returning⟩ := ih
      have sound := sound_of_reachable (reach.steps (fun _ _ arrives => arrives.new) sofar)
      exact ⟨assigned.of_step sound arrives.leavesWork done,
        assigned.sending sound returning arrives.leavesWork done⟩

/-- As long as nothing is dispatched twice, nobody is deleted, and the worker neither gets a reply
nor waits for one, a worker that calls other services keeps its assignment; its `TPTRETN` stores the
result in the transaction and completes it. -/
theorem nested_calls_keep_assignment (reach : Reachable PicksNew σ₀) (new : PicksNew σ₀ e)
    (dispatch : step σ₀ e = .ok σ₁) (fresh : .dispatched a w t ∉ σ₀.log)
    (given : .dispatched a w t ∈ σ₁.log) (calls : Steps (Nests w) σ₁ σ) :
    ∃ x tr v, σ.client w = some x ∧ x.wait4 = some (.tran t) ∧ σ.tran t = some tr ∧
      tr.executor = some a ∧ σ.advert a = some v ∧ v.client = w ∧
      ∀ e header, Received σ e w .svrreturn header →
        (returnLength header = 0 →
          ∃ τ, step σ e = .ok τ ∧ Completes σ τ t (tr.returned header σ.next) [] ∧ τ.AtCommand w) ∧
        (0 < returnLength header → ∃ τ, step σ e = .ok τ ∧
          τ.Reading w .part2 (returnLength header).toNat [] ∧
          ∀ ρ e' filled, Steps (Arrives w tr.client) τ ρ → Received ρ e' w .part2 filled →
            ∃ y ω, ρ.client w = some y ∧ y.wait4 = some (.tran t) ∧
              ρ.tran t = some (tr.returned header σ.next) ∧
              step ρ e' = .ok ω ∧ Completes ρ ω t (tr.returned header σ.next) filled ∧
              ω.AtCommand w) := by
  have reach₁ : Reachable PicksNew σ₁ := .next reach new dispatch
  have reach' : Reachable PicksNew σ := reach₁.steps (fun _ _ nests => nests.new) calls
  obtain ⟨tr, assigned⟩ := assigned_of_dispatch reach new dispatch fresh given
  have assigned := assigned.calls reach₁ calls
  obtain ⟨x, live, serves⟩ := assigned.worker
  obtain ⟨v, advert, owner, _⟩ := assigned.advert
  refine ⟨x, tr, v, live, serves, assigned.found, assigned.executor, advert, owner, ?_⟩
  intro e header received
  refine ⟨assigned.returns (sound_of_reachable reach') received, fun long => ?_⟩
  obtain ⟨τ, done, assigned', returning, reading⟩ :=
    assigned.header (sound_of_reachable reach') received long
  refine ⟨τ, done, reading, fun ρ e' filled steps received' => ?_⟩
  have reachτ : Reachable PicksNew τ :=
    .next reach' (picksNew_of_received received (by decide)) done
  have reachρ : Reachable PicksNew ρ := reachτ.steps (fun _ _ arrives => arrives.new) steps
  obtain ⟨assigned'', returning'⟩ := assigned'.arrives reachτ returning steps
  obtain ⟨y, live', serves'⟩ := assigned''.worker
  obtain ⟨ω, done', completes, ready⟩ :=
    assigned''.completes (sound_of_reachable reachρ) returning' received'
  exact ⟨y, ω, live', serves', assigned''.found, done', completes, ready⟩

open Scenario in
/-- Worker 0 serves transaction 17 of client 2, calls service B of client 4, asks for the reply
without waiting for it, and returns a result of one byte. -/
theorem nested_calls_keep_assignment_nowait : ∃ σ x tr τ ω, Reachable PicksNew σ ∧
    σ.client 0 = some x ∧ x.requests ≠ [] ∧ x.wait4 = some (.tran 17) ∧ σ.tran 17 = some tr ∧
    tr.executor = some 8 ∧ step σ (receive 0 ([2] ++ longBytes 5 ++ longBytes 1) 0) = .ok τ ∧
    step τ (receive 0 [7] 0) = .ok ω ∧
    Completes τ ω 17 (tr.returned ([2] ++ longBytes 5 ++ longBytes 1) σ.next)
    [7] ∧ ω.AtCommand 0 := by
  let called := receive 2 (svcname 65 ++ longBytes 0 ++ longBytes 0) 9
  let nested := call 0 66 0 10 ++ getrply 0 10 TPNOBLOCK ++ [receive 0 [TPTRETN] 0]
  let returned := receive 0 ([2] ++ longBytes 5 ++ longBytes 1) 0
  obtain ⟨σ₀, reach, seen⟩ := reachable_of_permitted
    ([connect, connect, connect] ++ advertise 0 65 ++ advertise 4 66 ++ work
      0 ++ [receive 2 [TPTCALL] 0])
    (fun σ₀ : State => decide (PicksNew σ₀ called ∧ Obs.dispatched 8 0 17 ∉ σ₀.log) &&
      (step σ₀ called).toOption.any fun (σ₁ : State) =>
        decide (Obs.dispatched 8 0 17 ∈ σ₁.log) && (permitted (Nests 0) σ₁ nested &&
        (run σ₁ nested).toOption.any fun (σ : State) => decide
          (received σ returned = some (0, .svrreturn, [2] ++ longBytes 5 ++ longBytes 1) ∧
            ∃ x ∈ σ.client 0, x.requests ≠ []) &&
          (step σ returned).toOption.any fun (τ : State) =>
            decide (received τ (receive 0 [7] 0) = some (0, .part2, [7])))) true
    (show permitted PicksNew _ _ = true by decide +kernel) (by decide +kernel)
  obtain ⟨before, seen⟩ := Bool.and_eq_true_iff.mp seen
  obtain ⟨new, fresh⟩ := of_decide_eq_true before
  obtain ⟨σ₁, dispatch, seen⟩ := ok_of_any seen
  obtain ⟨given, seen⟩ := Bool.and_eq_true_iff.mp seen
  obtain ⟨nests, seen⟩ := Bool.and_eq_true_iff.mp seen
  obtain ⟨σ, ran, seen⟩ := ok_of_any seen
  obtain ⟨now, seen⟩ := Bool.and_eq_true_iff.mp seen
  obtain ⟨received, x', live', asked⟩ := of_decide_eq_true now
  obtain ⟨τ, done, seen⟩ := ok_of_any seen
  have calls : Steps (Nests 0) σ₁ σ := steps_of_permitted ran nests
  obtain ⟨x, tr, v, live, serves, found, executor, _, _, returns⟩ :=
    nested_calls_keep_assignment reach new dispatch fresh (of_decide_eq_true given) calls
  obtain ⟨τ', done', _, finishes⟩ := (returns _ _ received).2 (by decide)
  obtain rfl := Except.ok.inj (done.symm.trans done')
  have received' := of_decide_eq_true seen
  obtain ⟨_, ω, _, _, _, last, completes, ready⟩ := finishes τ _ _ .refl received'
  obtain rfl : x' = x := Option.some.inj (live'.symm.trans live)
  have reach' : Reachable PicksNew σ :=
    (Reachable.next reach new dispatch).steps (fun _ _ nests => nests.new) calls
  exact ⟨σ, x', tr, τ, ω, reach', live, asked, serves, found, executor, done, last,
    completes, ready⟩

open Scenario in
/-- Worker 0 serves a transaction, calls service B of client 4 and gets the reply. Its `TPTRETN`
then finds no transaction. -/
theorem nested_call_loses_assignment : ∃ σ,
    run .start ([connect, connect, connect] ++ advertise 0 65 ++ work 0 ++ call 2 65 0 9 ++
      advertise 4 66 ++ work 4 ++ call 0 66 0 10 ++ getrply 0 10 0 ++ giveBack 4 2 0 ++
      [receive 0 [TPTRETN] 0]) = .ok σ ∧
    Reachable anyStep σ ∧
    .dispatched 8 0 13 ∈ σ.log ∧ (σ.tran 13).map (·.executor) = some (some 8) ∧
    (σ.client 0).map (·.wait4) = some none ∧
    step σ (receive 0 ([2] ++ longBytes 5 ++ longBytes 0) 0) = .error .nullPointer := by
  obtain ⟨σ, execution, reach, seen⟩ := reachable_of_outcome
    ([connect, connect, connect] ++ advertise 0 65 ++ work 0 ++ call 2 65 0 9 ++ advertise 4
      66 ++ work 4 ++ call 0 66 0 10 ++ getrply 0 10 0 ++ giveBack 4 2 0 ++ [receive 0 [TPTRETN] 0])
    (fun σ => decide (.dispatched 8 0 13 ∈ σ.log ∧ (σ.tran 13).map (·.executor) = some (some 8) ∧
      (σ.client 0).map (·.wait4) = some none ∧
      death σ (receive 0 ([2] ++ longBytes 5 ++ longBytes 0) 0) = some .nullPointer)) true
      (by decide +kernel)
  obtain ⟨dispatched, executes, forgotten, dies⟩ := of_decide_eq_true seen
  exact ⟨σ, execution, reach, dispatched, executes, forgotten, death_eq_some_iff.mp dies⟩

/-! ## Clients that vanish -/

/-- Nothing is dispatched twice, neither worker `w` nor client `k` is deleted, and the worker sends
nothing but `TPTRETN`. -/
structure Serves (w k : ClientId) (σ : State) (e : Event) : Prop where
  new : PicksNew σ e
  worker : ¬Closes σ e w
  owner : ¬Closes σ e k
  disciplined : ∀ found ∈ received σ e, found.1 = w → found.2.1 = .command ∧
    found.2.2.getD 0 0 = TPTRETN

instance (w k : ClientId) (σ : State) (e : Event) : Decidable (Serves w k σ e) :=
  decidable_of_iff (PicksNew σ e ∧ ¬Closes σ e w ∧ ¬Closes σ e k ∧
      ∀ found ∈ received σ e, found.1 = w → found.2.1 = .command ∧ found.2.2.getD 0 0 = TPTRETN)
    ⟨fun ⟨new, worker, owner, disciplined⟩ => ⟨new, worker, owner, disciplined⟩,
      fun ⟨new, worker, owner, disciplined⟩ => ⟨new, worker, owner, disciplined⟩⟩

theorem Serves.of_received {k : ClientId} {handler : Handler} {filled : Bytes}
    (serves : Serves w k σ e) (received : Received σ e w handler filled) :
    handler = .command ∧ filled.getD 0 0 = TPTRETN :=
  serves.disciplined (w, handler, filled) received rfl

theorem Serves.leavesWork {k : ClientId} (serves : Serves w k σ e) : LeavesWork σ e w a k where
  new := serves.new
  worker := serves.worker
  owner := serves.owner
  offers := fun ⟨_, received, _⟩ => absurd (serves.of_received received).1 (by decide)
  busy := by
    rintro ⟨filled, received, work⟩
    exact absurd (work.symm.trans (serves.of_received received).2) (by decide)
  silent := fun ⟨_, received⟩ => absurd (serves.of_received received).1 (by decide)
  executes := fun ⟨_, received⟩ => received.elim (fun received =>
    absurd (serves.of_received received).1 (by decide))
    fun received => absurd (serves.of_received received).1 (by decide)

theorem Assigned.serves (assigned : Assigned w a t tr {} σ₁) (reach : Reachable PicksNew σ₁)
    (steps : Steps (Serves w tr.client) σ₁ σ) : Assigned w a t tr {} σ := by
  induction steps with
  | refl => exact assigned
  | tail sofar last ih =>
      obtain ⟨e, serves, done⟩ := last
      have sound := sound_of_reachable (reach.steps (fun _ _ serves => serves.new) sofar)
      exact ih.of_step sound serves.leavesWork done

/-- Whatever the others do, a client that waits to send a command goes on waiting. -/
theorem State.Reading.others {handler : Handler} {room : Nat} {got : Bytes}
    {allowed : State → Event → Prop} {events : List Event} (reach : Reachable allowed σ)
    (reading : σ.Reading w handler room got) (fixed : handler ≠ .part2)
    (silent : ∀ e ∈ events, ∀ input, e.happening ≠ .ready w input)
    (execution : run σ events = .ok τ) : τ.Reading w handler room got := by
  induction events generalizing σ allowed with
  | nil =>
      obtain rfl := Except.ok.inj execution
      exact reading
  | cons e events ih =>
      obtain ⟨μ, done, execution⟩ := run_cons_ok_iff.mp execution
      have other := reading.other (inv_of_reachable reach) (apart_of_reachable reach) fixed
        (silent e List.mem_cons_self) done
      exact ih (.next (reach.mono fun _ _ _ => trivial) (trivial : anyStep σ e) done) other.1
        (fun e member => silent e (List.mem_cons_of_mem _ member)) execution

/-- Client `w` is ready to send a command, and no event of others changes that. -/
def State.StaysAtCommand (σ : State) (w : ClientId) : Prop :=
  σ.AtCommand w ∧ ∀ events τ, (∀ e ∈ events, ∀ input, e.happening ≠ .ready w input) →
    run σ events = .ok τ → τ.Reading w .command 1 []

theorem State.AtCommand.stays (reach : Reachable PicksNew σ) (ready : σ.AtCommand w) :
    σ.StaysAtCommand w :=
  ⟨ready, fun _ _ silent execution => ready.1.others reach (by decide) silent execution⟩

/-- As long as nothing is dispatched twice and the client that submitted a dispatched transaction
stays until the result is complete, the worker's `TPTRETN` is processed to the end. The client may
vanish afterwards: the worker stays ready for its next command. -/
theorem return_processed (reach : Reachable PicksNew σ₀) (new : PicksNew σ₀ e)
    (dispatch : step σ₀ e = .ok σ₁) (fresh : .dispatched a w t ∉ σ₀.log)
    (given : .dispatched a w t ∈ σ₁.log) :
    ∃ tr, σ₁.tran t = some tr ∧
      ∀ σ e header, Steps (Serves w tr.client) σ₁ σ → Received σ e w .svrreturn header →
        (returnLength header = 0 → ∃ τ, step σ e = .ok τ ∧ τ.StaysAtCommand w) ∧
        (0 < returnLength header → ∃ τ, step σ e = .ok τ ∧
          τ.Reading w .part2 (returnLength header).toNat [] ∧
          ∀ ρ e' filled, Steps (Arrives w tr.client) τ ρ → Received ρ e' w .part2 filled →
            ∃ ω, step ρ e' = .ok ω ∧ ω.StaysAtCommand w) := by
  have reach₁ : Reachable PicksNew σ₁ := .next reach new dispatch
  obtain ⟨tr, assigned₁⟩ := assigned_of_dispatch reach new dispatch fresh given
  refine ⟨tr, assigned₁.found, fun σ e header steps received => ?_⟩
  have reach' : Reachable PicksNew σ := reach₁.steps (fun _ _ serves => serves.new) steps
  have assigned := assigned₁.serves reach₁ steps
  have next : ∀ τ, step σ e = .ok τ → Reachable PicksNew τ :=
    fun _ done => .next reach' (picksNew_of_received received (by decide)) done
  constructor
  · intro empty
    obtain ⟨τ, done, _, ready⟩ := assigned.returns (sound_of_reachable reach') received empty
    exact ⟨τ, done, ready.stays (next τ done)⟩
  · intro long
    obtain ⟨τ, done, assigned', returning, reading⟩ :=
      assigned.header (sound_of_reachable reach') received long
    refine ⟨τ, done, reading, fun ρ e' filled steps received' => ?_⟩
    have reachρ : Reachable PicksNew ρ := (next τ done).steps (fun _ _ arrives => arrives.new) steps
    obtain ⟨assigned'', returning'⟩ := assigned'.arrives (next τ done) returning steps
    obtain ⟨ω, done', _, ready⟩ :=
      assigned''.completes (sound_of_reachable reachρ) returning' received'
    have reachω : Reachable PicksNew ω :=
      .next reachρ (picksNew_of_received received' (by decide)) done'
    exact ⟨ω, done', ready.stays reachω⟩

open Scenario in
/-- Worker 0 serves transaction 11 of client 2, announces a result of one byte and sends it; then
client 2 is deleted. -/
theorem return_processed_before_hangUp : ∃ σ τ ω ρ, Reachable PicksNew σ ∧
    step σ (receive 0 ([2] ++ longBytes 5 ++ longBytes 1) 0) = .ok τ ∧
    step τ (receive 0 [7] 0) = .ok ω ∧ ω.AtCommand 0 ∧ step ω (hangUp 2) = .ok ρ ∧
    ρ.client 2 = none ∧ ρ.Reading 0 .command 1 [] := by
  let called := receive 2 (svcname 65 ++ longBytes 0 ++ longBytes 0) 9
  let returned := receive 0 ([2] ++ longBytes 5 ++ longBytes 1) 0
  obtain ⟨σ₀, reach, seen⟩ := reachable_of_permitted
    ([connect, connect] ++ advertise 0 65 ++ work 0 ++ [receive 2 [TPTCALL] 0])
    (fun σ₀ : State => decide (PicksNew σ₀ called ∧ Obs.dispatched 6 0 11 ∉ σ₀.log) &&
      (step σ₀ called).toOption.any fun (σ₁ : State) => decide (Obs.dispatched 6 0 11 ∈ σ₁.log ∧
          (σ₁.tran 11).map (·.client) = some 2) &&
        (permitted (Serves 0 2) σ₁ [receive 0 [TPTRETN] 0] &&
        (run σ₁ [receive 0 [TPTRETN] 0]).toOption.any fun (σ : State) => decide
          (received σ returned = some (0, .svrreturn, [2] ++ longBytes 5 ++ longBytes 1)) &&
          (step σ returned).toOption.any fun (τ : State) =>
            decide (received τ (receive 0 [7] 0) = some (0, .part2, [7])) &&
            (step τ (receive 0 [7] 0)).toOption.any fun (ω : State) =>
              (step ω (hangUp 2)).toOption.any fun (ρ : State) => decide (ρ.client 2 = none))) true
    (show permitted PicksNew _ _ = true by decide +kernel) (by decide +kernel)
  obtain ⟨before, seen⟩ := Bool.and_eq_true_iff.mp seen
  obtain ⟨new, fresh⟩ := of_decide_eq_true before
  obtain ⟨σ₁, dispatch, seen⟩ := ok_of_any seen
  obtain ⟨after, seen⟩ := Bool.and_eq_true_iff.mp seen
  obtain ⟨given, owner⟩ := of_decide_eq_true after
  obtain ⟨disciplined, seen⟩ := Bool.and_eq_true_iff.mp seen
  obtain ⟨σ, ran, seen⟩ := ok_of_any seen
  obtain ⟨now, seen⟩ := Bool.and_eq_true_iff.mp seen
  have received := of_decide_eq_true now
  obtain ⟨τ, done, seen⟩ := ok_of_any seen
  obtain ⟨later, seen⟩ := Bool.and_eq_true_iff.mp seen
  have received' := of_decide_eq_true later
  obtain ⟨ω, last, seen⟩ := ok_of_any seen
  obtain ⟨ρ, vanishes, gone⟩ := ok_of_any seen
  obtain ⟨tr, found, processed⟩ := return_processed reach new dispatch fresh given
  have owned : tr.client = 2 := by simpa [found] using owner
  have steps : Steps (Serves 0 tr.client) σ₁ σ := by
    rw [owned]
    exact steps_of_permitted ran disciplined
  obtain ⟨τ', done', _, finishes⟩ := (processed σ returned _ steps received).2 (by decide)
  obtain rfl := Except.ok.inj (done.symm.trans done')
  obtain ⟨ω', last', ready, stays⟩ := finishes τ _ _ .refl received'
  obtain rfl := Except.ok.inj (last.symm.trans last')
  have reach' : Reachable PicksNew σ :=
    (Reachable.next reach new dispatch).steps (fun _ _ serves => serves.new) steps
  refine ⟨σ, τ, ω, ρ, reach', done, last, ready, vanishes, of_decide_eq_true gone,
    stays [hangUp 2] ρ ?_ (run_cons_ok_iff.mpr ⟨ρ, vanishes, rfl⟩)⟩
  intro e member input happening
  obtain rfl := List.mem_singleton.mp member
  cases happening

open Scenario in
/-- Client 2 is deleted while worker 0 serves its transaction. When it goes before the header of the
worker's `TPTRETN`, `svrreturn` follows an absent `wait4`; when it goes between the header and the
data, `Iowait` reads into a freed buffer. -/
theorem return_interrupted :
    (∃ σ, run .start ([connect, connect] ++ advertise 0 65 ++ work 0 ++ call 2 65 0 9 ++
      [hangUp 2] ++
        [receive 0 [TPTRETN] 0]) = .ok σ ∧ Reachable anyStep σ ∧ .dispatched 6 0 11 ∈ σ.log ∧
      step σ (receive 0 ([2] ++ longBytes 5 ++ longBytes 0) 0) = .error .nullPointer) ∧
    ∃ σ, run .start ([connect, connect] ++ advertise 0 65 ++ work 0 ++ call 2 65 0 9 ++
      giveBack 0 2 1 ++
        [hangUp 2]) = .ok σ ∧ Reachable anyStep σ ∧ .dispatched 6 0 11 ∈ σ.log ∧
      step σ (receive 0 [7] 0) = .error .useAfterFree := by
  constructor
  · obtain ⟨σ, execution, reach, seen⟩ := reachable_of_outcome
      ([connect, connect] ++ advertise 0 65 ++ work 0 ++ call 2 65 0 9 ++ [hangUp 2] ++
        [receive 0 [TPTRETN] 0])
      (fun σ => decide (.dispatched 6 0 11 ∈ σ.log ∧
        death σ (receive 0 ([2] ++ longBytes 5 ++ longBytes 0) 0) = some .nullPointer)) true
        (by decide +kernel)
    obtain ⟨dispatched, dies⟩ := of_decide_eq_true seen
    exact ⟨σ, execution, reach, dispatched, death_eq_some_iff.mp dies⟩
  · obtain ⟨σ, execution, reach, seen⟩ := reachable_of_outcome
      ([connect, connect] ++ advertise 0 65 ++ work 0 ++ call 2 65 0 9 ++ giveBack 0 2
        1 ++ [hangUp 2])
      (fun σ => decide (.dispatched 6 0 11 ∈ σ.log ∧
        death σ (receive 0 [7] 0) = some .useAfterFree)) true (by decide +kernel)
    obtain ⟨dispatched, dies⟩ := of_decide_eq_true seen
    exact ⟨σ, execution, reach, dispatched, death_eq_some_iff.mp dies⟩

end Switchboard
end Xatmi
